import Tessera.Transactions.Sequential

/-!
# Calls made one after the other

When nobody holds a lock, a call that is started can run to its end by itself; when it holds none at
its end, so can the next one.

* `Program.finish_pending`, `Program.Reads.pending`, `Program.Reads.mono` — what a run by itself
  depends on;
* `Program.finish_map` — a result that is mapped;
* `Program.Releases` — a program holds nothing at its end if it held nothing at its beginning;
* `World.Idle`, `World.Run.call` — one call in a pool.
-/

namespace Transactions

variable {σ κ ω ι ε α β Call : Type}
variable {D : Database σ ω ε} {A A' : σ → ι → Prop}

/-! ## What a run depends on -/

/-- What a session sees depends on its writes only. -/
theorem Standing.view_pending {f f' : Standing σ κ ω} (h : f.pending = f'.pending) (s : σ) :
    f.view D s = f'.view D s := by
  unfold Standing.view
  rw [h]

/-- What it would commit depends on its writes only. -/
theorem Standing.committed_pending {f f' : Standing σ κ ω} (h : f.pending = f'.pending) (s : σ) :
    f.committed D s = f'.committed D s := by
  unfold Standing.committed
  rw [Standing.view_pending h, h]

/-- Of the standing only the pending writes matter to where a program ends. -/
theorem Program.finish_pending {p : Program σ κ ω ι ε α} :
    ∀ {xs : ℕ → ι} {f f' : Standing σ κ ω} {s : σ}, f.pending = f'.pending →
      (p.finish D xs f s).1 = (p.finish D xs f' s).1 ∧
        (p.finish D xs f s).2.2 = (p.finish D xs f' s).2.2 := by
  induction p with
  | done r => exact fun _ => ⟨rfl, rfl⟩
  | input next ih => exact fun h => ih _ h
  | query next ih =>
    intro xs f f' s h
    unfold Program.finish
    rw [Standing.view_pending h]
    exact ih _ h
  | lock key mode next ih =>
    intro xs f f' s h
    unfold Program.finish
    rw [Standing.view_pending h]
    exact ih _ h
  | write row next ih => exact fun h => ih (congrArg (· ++ [row]) h)
  | instant row next ih =>
    intro xs f f' s h
    unfold Program.finish
    rw [Standing.view_pending h]
    exact ih _ h
  | commit next ih =>
    intro xs f f' s h
    unfold Program.finish
    rw [Standing.view_pending h, Standing.committed_pending h, h]
    exact ih _ rfl
  | rollback next ih => exact fun _ => ih rfl

/-- Which readings are admissible depends on the writes made before, not on the locks. -/
theorem Program.Reads.pending {p : Program σ κ ω ι ε α} :
    ∀ {xs : ℕ → ι} {f f' : Standing σ κ ω} {s : σ}, f.pending = f'.pending →
      p.Reads D A xs f s → p.Reads D A xs f' s := by
  induction p with
  | done r => exact fun _ _ => trivial
  | input next ih =>
    intro xs f f' s h hreads
    have hview := Standing.view_pending (D := D) h s
    exact ⟨hview ▸ hreads.1, ih _ h hreads.2⟩
  | query next ih =>
    intro xs f f' s h hreads
    unfold Program.Reads at hreads ⊢
    rw [← Standing.view_pending h]
    refine ih _ ?_ hreads
    exact h
  | lock key mode next ih =>
    intro xs f f' s h hreads
    unfold Program.Reads at hreads ⊢
    rw [← Standing.view_pending h]
    refine ih _ ?_ hreads
    exact h
  | write row next ih => exact fun h hreads => ih (congrArg (· ++ [row]) h) hreads
  | instant row next ih =>
    intro xs f f' s h hreads
    unfold Program.Reads at hreads ⊢
    rw [← Standing.view_pending h]
    exact ih _ h hreads
  | commit next ih =>
    intro xs f f' s h hreads
    unfold Program.Reads at hreads ⊢
    rw [← Standing.view_pending h, ← Standing.committed_pending h, ← h]
    refine ih _ ?_ hreads
    rfl
  | rollback next ih =>
    intro xs f f' s h hreads
    refine ih ?_ hreads
    rfl

/-- Readings that are admissible are so under a weaker condition. -/
theorem Program.Reads.mono (hA : ∀ s x, A s x → A' s x) {p : Program σ κ ω ι ε α} :
    ∀ {xs : ℕ → ι} {f : Standing σ κ ω} {s : σ}, p.Reads D A xs f s → p.Reads D A' xs f s := by
  induction p with
  | done r => exact fun _ => trivial
  | input next ih => exact fun h => ⟨hA _ _ h.1, ih _ h.2⟩
  | query next ih => exact fun h => ih _ h
  | lock key mode next ih => exact fun h => ih _ h
  | write row next ih => exact fun h => ih h
  | instant row next ih => exact fun h => ih _ h
  | commit next ih => exact fun h => ih _ h
  | rollback next ih => exact fun h => ih h

/-- Mapping the result changes nothing else. -/
theorem Program.finish_map (g : α → β) {p : Program σ κ ω ι ε α} :
    ∀ {xs : ℕ → ι} {f : Standing σ κ ω} {s : σ},
      (g <$> p).finish D xs f s = ((p.finish D xs f s).1.map g, (p.finish D xs f s).2) := by
  induction p with
  | done r => cases r <;> exact rfl
  | input next ih => exact ih _
  | query next ih => exact ih _
  | lock key mode next ih => exact ih _
  | write row next ih => exact ih
  | instant row next ih => exact ih _
  | commit next ih => exact ih _
  | rollback next ih => exact ih

/-! ## Locks at the end -/

/-- A program that starts without a lock ends without one. -/
def Program.Releases (D : Database σ ω ε) (p : Program σ κ ω ι ε α) : Prop :=
  ∀ (f : Standing σ κ ω) (s : σ), f.held = [] →
    ends D (fun _ _ => True) p f s fun _ f' _ => f'.held = []

namespace Program.Releases

/-- Every program without interference comes to an end. -/
theorem ended (p : Program σ κ ω ι ε α) : ∀ (f : Standing σ κ ω) (s : σ),
    ends D A p f s fun _ _ _ => True := by
  induction p with
  | done r => exact fun _ _ => trivial
  | input next ih => exact fun _ _ _ _ => ih _ _ _
  | query next ih => exact fun _ _ => ih _ _ _
  | lock key mode next ih => exact fun _ _ => ih _ _ _
  | write row next ih => exact fun _ _ => ih _ _
  | instant row next ih => exact fun _ _ => ih _ _ _
  | commit next ih => exact fun _ _ => ⟨fun _ => ih _ _ _, fun _ _ => ih _ _ _⟩
  | rollback next ih => exact fun _ _ => ih _ _

/-- A transaction gives its locks back. -/
theorem transaction (body : Program σ κ ω ι ε α) : (Program.transaction body).Releases D := by
  intro f s _
  refine ends_transaction (ends_mono (fun r f' s' _ => ?_) (ended body f s))
  cases r with
  | ok a => exact ⟨fun _ => rfl, fun _ _ => rfl⟩
  | error e => rfl

/-- A program that returns at once holds no lock at its end. -/
theorem done (r : Except ε α) : (Program.done r : Program σ κ ω ι ε α).Releases D :=
  fun _ _ h => h

/-- A handler releases what its program left. -/
theorem handle {p : Program σ κ ω ι ε α} {k : Except ε α → Program σ κ ω ι ε β} (hp : p.Releases D)
    (hk : ∀ r, (k r).Releases D) : (p.handle k).Releases D :=
  fun f s h => ends_handle.2 (ends_mono (fun r f' s' h' => hk r f' s' h') (hp f s h))

/-- Two programs one after the other, each of which gives its locks back. -/
theorem bind {p : Program σ κ ω ι ε α} {k : α → Program σ κ ω ι ε β} (hp : p.Releases D)
    (hk : ∀ a, (k a).Releases D) : (p >>= k).Releases D := by
  refine handle hp fun r => ?_
  cases r with
  | ok a => exact hk a
  | error e => exact done _

theorem select (view : σ → α) : (Program.select view : Program σ κ ω ι ε α).Releases D :=
  fun _ _ h => h

theorem read : (Program.read : Program σ κ ω ι ε ι).Releases D := fun _ _ h _ _ => h

/-- What a call holds at its end. -/
theorem held {p : Program σ κ ω ι ε α} (h : p.Releases D) (xs : ℕ → ι) (s : σ) :
    (p.finish D xs {} s).2.1.held = [] :=
  finish_of_ends (h {} s rfl) (.of_forall fun _ _ => trivial)

end Program.Releases

/-! ## In a pool -/

variable {program : Call → Program σ κ ω ι ε α} {w : World σ κ ω ι ε α Call}

/-- Nobody holds a lock. -/
def World.Idle (w : World σ κ ω ι ε α Call) : Prop := ∀ t ∈ w.sessions, t.standing.held = []

/-- The pool after a call that nobody disturbed. -/
def World.called (w : World σ κ ω ι ε α Call) (D : Database σ ω ε)
    (program : Call → Program σ κ ω ι ε α) (call : Call) (xs : ℕ → ι) : World σ κ ω ι ε α Call where
  db := ((program call).finish D xs {} w.db).2.2
  sessions := w.sessions ++
    [⟨call, .done ((program call).finish D xs {} w.db).1, ((program call).finish D xs {} w.db).2.1⟩]

/-- After a call that gives its locks back the pool is idle again. -/
theorem World.Idle.called (hidle : w.Idle) {call : Call} (h : (program call).Releases D)
    (xs : ℕ → ι) : (w.called D program call xs).Idle := by
  intro t ht
  rcases List.mem_append.1 ht with ht | ht
  · exact hidle t ht
  · rw [List.mem_singleton.1 ht]
    exact h.held xs w.db

/-- A call that is started when nobody holds a lock can run to its end. -/
theorem World.Run.call [DecidableEq κ] (hidle : w.Idle) (call : Call) (xs : ℕ → ι) :
    World.Run D program (fun _ _ => True) w (w.called D program call xs) := by
  have hstart : World.Run D program (fun _ _ => True) w
      { w with sessions := w.sessions ++ [⟨call, program call, {}⟩] } :=
    .tail (.refl w) trivial (e := .start call) rfl
  have hfree : World.heldByOthers
      { w with sessions := w.sessions ++ [⟨call, program call, {}⟩] } w.sessions.length = [] := by
    unfold World.heldByOthers
    rw [List.eraseIdx_append_of_length_le le_rfl, Nat.sub_self]
    refine List.flatMap_eq_nil_iff.2 fun t ht => hidle t ?_
    simpa using ht
  have hlast : (w.sessions ++ [⟨call, program call, {}⟩])[w.sessions.length]? =
      some (⟨call, program call, {}⟩ : Session σ κ ω ι ε α Call) :=
    List.getElem?_concat_length
  refine hstart.trans ?_
  have hfinish : World.Run D program (fun _ _ => True)
      { w with sessions := w.sessions ++ [⟨call, program call, {}⟩] }
      ⟨((program call).finish D xs {} w.db).2.2, _⟩ := World.Run.finish hlast hfree
  simpa [World.called] using hfinish

end Transactions
