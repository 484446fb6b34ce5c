import Tessera.Transactions.Logic

/-!
# What a weakest precondition says about every interleaving

If each program meets its precondition from every committed state in which it may be
started, then in every world that the pool reaches

* the committed state satisfies the invariant,
* each session still meets the precondition of what it has left to do,
* two sessions never hold conflicting locks on one row,

and each event changes the committed state only by what the acting session's terms allow.

* `World.Sound` — the invariant of the pool; `World.Sound.step`, `World.Sound.run`;
* `Change`, `step_change` — what one event may do to the committed state.
-/

namespace Transactions

variable {σ κ ω ι ε α Call : Type}

/-- The circumstances demanded by the terms of the session that acts. -/
def Admits (terms : Call → Terms σ κ ω) (w : World σ κ ω ι ε α Call) :
    Event ι Call → Prop
  | .run i _ => ∀ t, w.sessions[i]? = some t →
      (terms t.call).admits t.standing t.program.statement w.db
  | .start call => (terms call).starts w.db
  | .kill _ => True

/-- Each lock was waited for under its guard, by a session that held no more than now. -/
def Earned (R : Discipline σ κ ω) (T : Terms σ κ ω) (held : List (κ × LockMode))
    (s : σ) : Prop :=
  ∀ h ∈ held, ∃ f s₀, T.guard f h s₀ ∧ f.held ⊆ held ∧ R.grows s₀ s

/-- What is true of one session in a world that the pool reaches. -/
structure Session.Sound (D : Database σ ω ε) (R : Discipline σ κ ω) (T : Terms σ κ ω)
    (Q : Post σ κ ω ε α) (t : Session σ κ ω ι ε α Call) (s : σ) : Prop where
  safe : wp D R T t.program t.standing s Q
  covered : ∀ row ∈ t.standing.pending, R.needs row ⊆ t.standing.held
  tidy : R.tidy (t.standing.view D s)
  earned : Earned R T t.standing.held s

/-- The invariant of the pool.  The postcondition may depend on the session's place in the
pool, so that sessions started later can be held to more. -/
structure World.Sound (D : Database σ ω ε) (R : Discipline σ κ ω)
    (terms : Call → Terms σ κ ω) (post : ℕ → Call → Post σ κ ω ε α)
    (w : World σ κ ω ι ε α Call) : Prop where
  inv : R.inv w.db
  session : ∀ {i : ℕ} {t : Session σ κ ω ι ε α Call}, w.sessions[i]? = some t →
    t.Sound D R (terms t.call) (post i t.call) w.db
  exclusive : ∀ {i j : ℕ} {t u : Session σ κ ω ι ε α Call}, i ≠ j →
    w.sessions[i]? = some t → w.sessions[j]? = some u →
    ∀ h ∈ t.standing.held, ∀ k ∈ u.standing.held, h.1 = k.1 → h.2.conflicts k.2 = false

/-- What one event may do to the committed state. -/
inductive Change (D : Database σ ω ε) (terms : Call → Terms σ κ ω)
    (w : World σ κ ω ι ε α Call) (e : Event ι Call) : σ → Prop
  | none : Change D terms w e w.db
  | commit {i : ℕ} {x : ι} {t : Session σ κ ω ι ε α Call} (event : e = .run i x)
      (session : w.sessions[i]? = some t)
      (commits : (terms t.call).commits w.db t.standing.pending) :
      Change D terms w e (D.applyAll w.db t.standing.pending)
  | draw {i : ℕ} {x : ι} {t : Session σ κ ω ι ε α Call} {row : ω} (event : e = .run i x)
      (session : w.sessions[i]? = some t) (draws : (terms t.call).draws w.db row) :
      Change D terms w e (D.apply w.db row)

section
variable {D : Database σ ω ε} {R : Discipline σ κ ω} {T : Terms σ κ ω}

/-- A lock keeps what it protects from a list of writes made under compatible locks. -/
theorem Discipline.Lawful.same_applyAll (hR : R.Lawful D) {k : κ} {m : LockMode}
    {rows : List ω}
    (h : ∀ row ∈ rows, ∀ n ∈ R.needs row, n.1 = k → n.2.conflicts m = false) (s : σ) :
    R.same k m s (D.applyAll s rows) := by
  induction rows generalizing s with
  | nil => exact hR.same_refl k m s
  | cons row rows ih =>
    have hrow : R.same k m s (D.apply s row) :=
      hR.same_apply (h row List.mem_cons_self)
    have hrest := ih (fun r hr => h r (List.mem_cons_of_mem _ hr)) (D.apply s row)
    exact hR.same_trans hrow hrest

/-- What a session has earned with its locks is still there when the state grows. -/
theorem Earned.mono (hR : R.Lawful D) {held : List (κ × LockMode)} {s s' : σ}
    (h : Earned R T held s) (hgrows : R.grows s s') : Earned R T held s' := by
  intro k hk
  obtain ⟨f, s₀, hguard, hheld, hs₀⟩ := h k hk
  exact ⟨f, s₀, hguard, hheld, hR.grows_trans hs₀ hgrows⟩

/-- Without locks nothing has been earned. -/
theorem Earned.nil {s : σ} : Earned R T [] s := fun _ hk => absurd hk List.not_mem_nil

/-- One more lock, granted while its guard held. -/
theorem Earned.cons (hR : R.Lawful D) {f : Standing σ κ ω} {h : κ × LockMode} {s : σ}
    (hold : Earned R T f.held s) (hguard : T.guard f h s) :
    Earned R T (h :: f.held) s := by
  intro k hk
  rcases List.mem_cons.1 hk with rfl | hk
  · exact ⟨f, s, hguard, List.subset_cons_self _ _, hR.grows_refl s⟩
  · obtain ⟨f', s₀, hg, hheld, hs₀⟩ := hold k hk
    exact ⟨f', s₀, hg, List.Subset.trans hheld (List.subset_cons_self _ _), hs₀⟩

/-- What the next statement of a session leaves behind, for itself and for the others. -/
structure Turned (D : Database σ ω ε) (R : Discipline σ κ ω) (T : Terms σ κ ω)
    (Q : Post σ κ ω ε α) (s : σ) (f : Standing σ κ ω)
    (r : σ × Program σ κ ω ι ε α × Standing σ κ ω) : Prop where
  inv : R.inv r.1
  grows : R.grows s r.1
  same : ∀ k m, (∀ h ∈ f.held, h.1 = k → h.2.conflicts m = false) → R.same k m s r.1
  safe : wp D R T r.2.1 r.2.2 r.1 Q
  covered : ∀ row ∈ r.2.2.pending, R.needs row ⊆ r.2.2.held
  tidy : R.tidy (r.2.2.view D r.1)
  earned : Earned R T r.2.2.held r.1
  change : r.1 = s ∨ (T.commits s f.pending ∧ r.1 = D.applyAll s f.pending) ∨
    ∃ row, T.draws s row ∧ r.1 = D.apply s row

/-- One turn of a session keeps what is true of it, and of the committed state. -/
theorem turned (hR : R.Lawful D) (hT : T.Lawful D R) {Q : Post σ κ ω ε α} {x : ι} {s : σ}
    {f : Standing σ κ ω} {p : Program σ κ ω ι ε α}
    {r : σ × Program σ κ ω ι ε α × Standing σ κ ω} (hinv : R.inv s)
    (hsafe : wp D R T p f s Q) (hcovered : ∀ row ∈ f.pending, R.needs row ⊆ f.held)
    (htidy : R.tidy (f.view D s)) (hearned : Earned R T f.held s)
    (hadmits : T.admits f p.statement s) (hr : p.turn D x s f = some r) : Turned D R T Q s f r := by
  have hrely := Rely.refl hR.toRegular hinv f.held
  have hgrows := hR.grows_refl s
  have hsame : ∀ k m, (∀ h ∈ f.held, h.1 = k → h.2.conflicts m = false) → R.same k m s s :=
    fun k m _ => hR.same_refl k m s
  have hnil : ∀ row ∈ ([] : List ω), R.needs row ⊆ ([] : List (κ × LockMode)) := by simp
  cases p with
  | done result => cases hr
  | input next =>
    cases hr
    exact ⟨hinv, hgrows, hsame, hsafe x, hcovered, htidy, hearned, .inl rfl⟩
  | query next =>
    cases hr
    exact ⟨hinv, hgrows, hsame, hsafe s hrely, hcovered, htidy, hearned, .inl rfl⟩
  | lock key mode next =>
    cases hr
    refine ⟨hinv, hgrows, hsame, (hsafe s hrely).2 hadmits, fun row hrow => ?_, htidy,
      hearned.cons hR (hsafe s hrely).1, .inl rfl⟩
    exact List.Subset.trans (hcovered row hrow) (List.subset_cons_self _ _)
  | write row next =>
    cases hr
    refine ⟨hinv, hgrows, hsame, (hsafe.2 s hrely htidy).2, fun row' hrow => ?_,
      (hsafe.2 s hrely htidy).1, hearned, .inl rfl⟩
    rcases List.mem_append.1 hrow with hmem | hmem
    · exact hcovered row' hmem
    · rw [List.mem_singleton.1 hmem]
      exact hsafe.1
  | instant row next =>
    cases hr
    obtain ⟨hdraws, hnext⟩ := hsafe s hrely
    have hgrows' := hT.draws_grows hinv hdraws
    have hinv' := hT.draws_inv hinv hdraws
    have hfree : ∀ k m, R.same k m s (D.apply s row) := fun k m =>
      hR.same_apply (by rw [hT.draws_free hdraws]; simp)
    refine ⟨hinv', hgrows', fun k m _ => hfree k m, hnext, hcovered, ?_,
      hearned.mono hR hgrows', .inr (.inr ⟨row, hdraws, rfl⟩)⟩
    exact hR.tidy_stable hcovered hinv ⟨hinv', hgrows', fun h _ => hfree h.1 h.2⟩ htidy
  | commit next =>
    simp only [Program.turn] at hr
    have hchoice := hsafe s hrely hadmits
    cases hd : D.deferred (f.view D s) f.pending with
    | ok u =>
      rw [hd] at hr
      cases hr
      obtain ⟨hcommits, hnext⟩ := hchoice.1 hd
      have hinv' := hT.commits_inv hinv hcommits
      refine ⟨hinv', hT.commits_grows hinv hcommits, fun k m hk => ?_, hnext, hnil,
        hR.tidy_inv hinv', .nil, .inr (.inl ⟨hcommits, rfl⟩)⟩
      exact hR.same_applyAll (fun row hrow n hn hnk => hk n (hcovered row hrow hn) hnk) s
    | error e =>
      rw [hd] at hr
      cases hr
      exact ⟨hinv, hgrows, hsame, hchoice.2 e hd, hnil, hR.tidy_inv hinv, .nil, .inl rfl⟩
  | rollback next =>
    cases hr
    exact ⟨hinv, hgrows, hsame, hsafe s hrely, hnil, hR.tidy_inv hinv, .nil, .inl rfl⟩

/-- The locks after a statement: those before, none, or one more that was granted. -/
theorem turn_held {x : ι} {s : σ} {f : Standing σ κ ω} {p : Program σ κ ω ι ε α}
    {r : σ × Program σ κ ω ι ε α × Standing σ κ ω} (hr : p.turn D x s f = some r) :
    ∀ h ∈ r.2.2.held, h ∈ f.held ∨ p.wants = some h := by
  cases p with
  | done result => cases hr
  | input next => cases hr; exact fun h hh => .inl hh
  | query next => cases hr; exact fun h hh => .inl hh
  | lock key mode next =>
    cases hr
    intro h hh
    rcases List.mem_cons.1 hh with rfl | hh
    · exact .inr rfl
    · exact .inl hh
  | write row next => cases hr; exact fun h hh => .inl hh
  | instant row next => cases hr; exact fun h hh => .inl hh
  | commit next =>
    simp only [Program.turn] at hr
    split at hr <;> cases hr <;> exact fun h hh => absurd hh List.not_mem_nil
  | rollback next => cases hr; exact fun h hh => absurd hh List.not_mem_nil

/-- A granted lock is compatible with every lock of another session. -/
theorem World.grants_compatible [DecidableEq κ] {w : World σ κ ω ι ε α Call} {i j : ℕ}
    {p : Program σ κ ω ι ε α} {u : Session σ κ ω ι ε α Call} (hgrants : w.grants i p = true)
    (hij : j ≠ i) (hu : w.sessions[j]? = some u) {h : κ × LockMode} (hh : p.wants = some h)
    {k : κ × LockMode} (hk : k ∈ u.standing.held) (hkey : h.1 = k.1) :
    k.2.conflicts h.2 = false := by
  have hmem : k ∈ w.heldByOthers i :=
    List.mem_flatMap.2 ⟨u, List.mem_eraseIdx_iff_getElem?.2 ⟨j, hij, hu⟩, hk⟩
  simp only [World.grants, hh, Option.all_some, World.compatible, List.all_eq_true] at hgrants
  simpa [hkey] using hgrants k hmem

end

/-! ## The pool -/

/-- An element of a list with one more at its end. -/
theorem getElem?_append_one {l : List α} {a b : α} {i : ℕ} (h : (l ++ [a])[i]? = some b) :
    l[i]? = some b ∨ (i = l.length ∧ a = b) := by
  rw [List.getElem?_append] at h
  split at h
  · exact .inl h
  · rw [List.getElem?_singleton] at h
    split at h
    · exact .inr ⟨by omega, Option.some.inj h⟩
    · cases h

/-- An element of a list in which one was replaced. -/
theorem getElem?_set_some {l : List α} {a b : α} {i j : ℕ} (h : (l.set i a)[j]? = some b) :
    (i = j ∧ b = a) ∨ (i ≠ j ∧ l[j]? = some b) := by
  rw [List.getElem?_set] at h
  split at h
  · split at h
    · exact .inl ⟨‹_›, (Option.some.inj h).symm⟩
    · cases h
  · exact .inr ⟨‹_›, h⟩

section
variable {D : Database σ ω ε} {R : Discipline σ κ ω}
variable {program : Call → Program σ κ ω ι ε α} {terms : Call → Terms σ κ ω}
variable {post : ℕ → Call → Post σ κ ω ε α}

/-- What must be shown of each program for the pool to be sound. -/
structure Verified (D : Database σ ω ε) (R : Discipline σ κ ω)
    (program : Call → Program σ κ ω ι ε α) (terms : Call → Terms σ κ ω)
    (post : ℕ → Call → Post σ κ ω ε α) : Prop where
  discipline : R.Lawful D
  lawful : ∀ call, (terms call).Lawful D R
  stable : ∀ i call, (post i call).Stable R
  lost : ∀ i call f s, post i call (.error D.lost) f s
  start : ∀ i call s, R.inv s → (terms call).starts s →
    wp D R (terms call) (program call) {} s (post i call)

/-- What a session sees of another's step. -/
theorem World.Sound.rely {w : World σ κ ω ι ε α Call}
    (hw : w.Sound D R terms post) {i j : ℕ} {t u : Session σ κ ω ι ε α Call} (hij : i ≠ j)
    (ht : w.sessions[i]? = some t) (hu : w.sessions[j]? = some u) {s' : σ}
    (hinv : R.inv s') (hgrows : R.grows w.db s')
    (hsame : ∀ k m, (∀ h ∈ t.standing.held, h.1 = k → h.2.conflicts m = false) →
      R.same k m w.db s') : Rely R u.standing.held w.db s' :=
  ⟨hinv, hgrows, fun h hh =>
    hsame h.1 h.2 fun g hg hkey => hw.exclusive hij ht hu g hg h hh hkey⟩

/-- The invariant of the pool after one session has moved. -/
theorem World.Sound.replace (hV : Verified D R program terms post)
    {w : World σ κ ω ι ε α Call} (hw : w.Sound D R terms post) {i : ℕ}
    {t t' : Session σ κ ω ι ε α Call} (ht : w.sessions[i]? = some t) {s' : σ}
    (hinv : R.inv s') (hgrows : R.grows w.db s')
    (hsame : ∀ k m, (∀ h ∈ t.standing.held, h.1 = k → h.2.conflicts m = false) →
      R.same k m w.db s')
    (ht' : t'.Sound D R (terms t'.call) (post i t'.call) s')
    (hheld : ∀ {j u}, j ≠ i → w.sessions[j]? = some u → ∀ h ∈ t'.standing.held,
      ∀ k ∈ u.standing.held, h.1 = k.1 → h.2.conflicts k.2 = false) :
    World.Sound D R terms post ⟨s', w.sessions.set i t'⟩ := by
  refine ⟨hinv, fun {j u} hu => ?_, fun {j k u v} hjk hu hv h hh g hg hkey => ?_⟩
  · rcases getElem?_set_some hu with ⟨rfl, rfl⟩ | ⟨hij, hu⟩
    · exact ht'
    · have hsound := hw.session hu
      have hrely := hw.rely hij ht hu hinv hgrows hsame
      have hR := hV.discipline
      exact ⟨wp_stable hR.toRegular (hV.stable _ _) hrely hsound.safe, hsound.covered,
        hR.tidy_stable hsound.covered hw.inv hrely hsound.tidy, hsound.earned.mono hR hgrows⟩
  · rcases getElem?_set_some hu with ⟨rfl, rfl⟩ | ⟨hij, hu'⟩
    · rcases getElem?_set_some hv with ⟨hik, -⟩ | ⟨hik, hv'⟩
      · exact absurd hik hjk
      · exact hheld hik.symm hv' h hh g hg hkey
    · rcases getElem?_set_some hv with ⟨rfl, rfl⟩ | ⟨hik, hv'⟩
      · rw [LockMode.conflicts_comm]
        exact hheld hjk hu' g hg h hh hkey.symm
      · exact hw.exclusive hjk hu' hv' h hh g hg hkey

/-- The invariant of the pool is kept by each event. -/
theorem World.Sound.step [DecidableEq κ] (hV : Verified D R program terms post)
    {w w' : World σ κ ω ι ε α Call} {e : Event ι Call} (hw : w.Sound D R terms post)
    (he : Admits terms w e) (hs : w.step D program e = some w') :
    w'.Sound D R terms post ∧ Change D terms w e w'.db ∧ R.grows w.db w'.db := by
  have hR := hV.discipline
  cases e with
  | start call =>
    cases hs
    have hnew : Session.Sound D R (terms call) (post w.sessions.length call)
        (⟨call, program call, {}⟩ : Session σ κ ω ι ε α Call) w.db :=
      ⟨hV.start _ call _ hw.inv he, by simp, hR.tidy_inv hw.inv, .nil⟩
    refine ⟨⟨hw.inv, fun {i t} ht => ?_, fun {i j t u} hij ht hu h hh k hk => ?_⟩, .none,
      hR.grows_refl _⟩
    · rcases getElem?_append_one ht with ht | ⟨rfl, rfl⟩
      · exact hw.session ht
      · exact hnew
    · rcases getElem?_append_one ht with ht | ⟨-, rfl⟩
      · rcases getElem?_append_one hu with hu | ⟨-, rfl⟩
        · exact hw.exclusive hij ht hu h hh k hk
        · exact absurd hk List.not_mem_nil
      · exact absurd hh List.not_mem_nil
  | run i x =>
    simp only [World.step, Option.bind_eq_some_iff] at hs
    obtain ⟨t, ht, hs⟩ := hs
    split at hs
    case isFalse => cases hs
    case isTrue hgrants =>
    obtain ⟨r, hr, rfl⟩ := Option.map_eq_some_iff.1 hs
    have hsound := hw.session ht
    have hturn := turned hR (hV.lawful t.call) hw.inv hsound.safe hsound.covered hsound.tidy
      hsound.earned (he t ht) hr
    refine ⟨hw.replace hV ht hturn.inv hturn.grows hturn.same
      ⟨hturn.safe, hturn.covered, hturn.tidy, hturn.earned⟩ ?_, ?_, hturn.grows⟩
    · intro j u hji hu h hh k hk hkey
      rcases turn_held hr h hh with hold | hnew
      · exact hw.exclusive hji.symm ht hu h hold k hk hkey
      · rw [LockMode.conflicts_comm]
        exact World.grants_compatible hgrants hji hu hnew hk hkey
    · rcases hturn.change with heq | ⟨hcommits, heq⟩ | ⟨row, hdraws, heq⟩
      · exact heq ▸ .none
      · exact heq ▸ .commit rfl ht hcommits
      · exact heq ▸ .draw rfl ht hdraws
  | kill i =>
    obtain ⟨t, ht, rfl⟩ := Option.map_eq_some_iff.1 hs
    refine ⟨hw.replace hV ht hw.inv (hR.grows_refl _) (fun k m _ => hR.same_refl k m _)
      ⟨hV.lost _ _ _ _, by simp [Standing.ended], hR.tidy_inv hw.inv, .nil⟩ ?_, .none,
      hR.grows_refl _⟩
    exact fun _ _ h hh => absurd hh List.not_mem_nil

/-- The invariant of the pool along a run. -/
theorem World.Sound.run [DecidableEq κ] (hV : Verified D R program terms post)
    {admits : World σ κ ω ι ε α Call → Event ι Call → Prop}
    (hadmits : ∀ w e, admits w e → Admits terms w e) {w w' : World σ κ ω ι ε α Call}
    (hrun : World.Run D program admits w w') (hw : w.Sound D R terms post) :
    w'.Sound D R terms post ∧ R.grows w.db w'.db := by
  induction hrun with
  | refl => exact ⟨hw, hV.discipline.grows_refl _⟩
  | tail _ he hs ih =>
    obtain ⟨hsound, -, hgrows⟩ := ih.1.step hV (hadmits _ _ he) hs
    exact ⟨hsound, hV.discipline.grows_trans ih.2 hgrows⟩

/-- A pool with nobody at work is sound. -/
theorem World.Sound.idle {s : σ} (hinv : R.inv s) :
    World.Sound D R terms post (⟨s, []⟩ : World σ κ ω ι ε α Call) :=
  ⟨hinv, fun h => absurd h (by simp), fun _ h => absurd h (by simp)⟩

end

end Transactions
