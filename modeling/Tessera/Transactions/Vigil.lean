import Tessera.Transactions.Layers

/-!
# What a lock keeps still besides its row

A row that every transaction of some kind has to lock protects more than itself: while one session
holds it, none of these transactions commits.  That is not said of a single write and its locks, but
of all the writes that are committed together.

* `Guards` — what a lock keeps still is not changed by transactions that do not hold it;
* `Discipline.vigilant` — as much to count on, and an invariant that is kept with it;
* `Vigil` — what must be shown of each program;
* `World.Watched`, `World.Watched.step`, `World.Watched.run` — the pool.
-/

namespace Transactions

variable {σ κ ω ι ε α Call : Type}

/-- What is committed or drawn leaves what a lock keeps still as it was, unless it was written
under that lock. -/
structure Guards (D : Database σ ω ε) (R : Discipline σ κ ω) (terms : Call → Terms σ κ ω)
    (calm : κ → LockMode → σ → σ → Prop) : Prop where
  refl : ∀ k m s, calm k m s s
  trans : ∀ {k m s s' s''}, calm k m s s' → calm k m s' s'' → calm k m s s''
  commits : ∀ {call s rows k m}, R.inv s → (terms call).commits s rows →
    (∀ row ∈ rows, ∀ n ∈ R.needs row, n.1 = k → n.2.conflicts m = false) →
      calm k m s (D.applyAll s rows)
  draws : ∀ {call s row k m}, R.inv s → (terms call).draws s row → calm k m s (D.apply s row)

/-- What a further layer may count on: the discipline, what the locks keep still, and its own
invariant.  It looks at nothing but what is committed. -/
def Discipline.vigilant (R : Discipline σ κ ω) (calm : κ → LockMode → σ → σ → Prop)
    (inv : σ → Prop) : Discipline σ κ ω where
  inv s := R.inv s ∧ inv s
  grows := R.grows
  same k m s s' := R.same k m s s' ∧ calm k m s s'
  tidy _ := True
  needs _ := []

/-- What must be shown of each program for a further layer. -/
structure Vigil (D : Database σ ω ε) (R : Discipline σ κ ω)
    (calm : κ → LockMode → σ → σ → Prop) (inv : σ → Prop)
    (program : Call → Program σ κ ω ι ε α) (terms terms' : Call → Terms σ κ ω) : Prop where
  guards : Guards D R terms calm
  commits : ∀ {call s rows}, R.inv s → inv s → (terms call).commits s rows →
    (terms' call).commits s rows → inv (D.applyAll s rows)
  draws : ∀ {call s row}, R.inv s → inv s → (terms call).draws s row →
    (terms' call).draws s row → inv (D.apply s row)
  start : ∀ call s, R.inv s → inv s → (terms' call).starts s →
    wp D (R.vigilant calm inv) (terms' call) (program call) {} s fun _ _ _ => True

section
variable {D : Database σ ω ε} {R R' : Discipline σ κ ω} {T T' : Terms σ κ ω}
variable {calm : κ → LockMode → σ → σ → Prop} {inv : σ → Prop}
variable {terms terms' : Call → Terms σ κ ω}

theorem Guards.regular (hG : Guards D R terms calm) (hR : R.Regular) :
    (R.vigilant calm inv).Regular where
  grows_refl := hR.grows_refl
  grows_trans := hR.grows_trans
  same_refl k m s := ⟨hR.same_refl k m s, hG.refl k m s⟩
  same_trans h h' := ⟨hR.same_trans h.1 h'.1, hG.trans h.2 h'.2⟩

/-- One statement, seen by two proofs about the same program: the second still holds of the rest,
and what has changed is allowed by both. -/
theorem turned_both {Q Q' : Post σ κ ω ε α} {x : ι} {s : σ} {f : Standing σ κ ω}
    {p : Program σ κ ω ι ε α} {r : σ × Program σ κ ω ι ε α × Standing σ κ ω}
    (hsafe : wp D R T p f s Q) (hsafe' : wp D R' T' p f s Q') (hrely : Rely R f.held s s)
    (hrely' : Rely R' f.held s s) (htidy' : R'.tidy (f.view D s))
    (hadmits : T.admits f p.statement s) (hadmits' : T'.admits f p.statement s)
    (hr : p.turn D x s f = some r) :
    wp D R' T' r.2.1 r.2.2 r.1 Q' ∧
      (r.1 = s ∨ ((T.upon T').commits s f.pending ∧ r.1 = D.applyAll s f.pending) ∨
        ∃ row, (T.upon T').draws s row ∧ r.1 = D.apply s row) := by
  cases p with
  | done result => cases hr
  | input next =>
    cases hr
    exact ⟨hsafe' x, .inl rfl⟩
  | query next =>
    cases hr
    exact ⟨hsafe' s hrely', .inl rfl⟩
  | lock key mode next =>
    cases hr
    exact ⟨(hsafe' s hrely').2 hadmits', .inl rfl⟩
  | write row next =>
    cases hr
    exact ⟨(hsafe'.2 s hrely' htidy').2, .inl rfl⟩
  | instant row next =>
    cases hr
    have hdraws := (hsafe s hrely).1
    have hdraws' := (hsafe' s hrely').1
    exact ⟨(hsafe' s hrely').2, .inr (.inr ⟨row, ⟨hdraws, hdraws'⟩, rfl⟩)⟩
  | commit next =>
    simp only [Program.turn] at hr
    have hchoice := hsafe s hrely hadmits
    have hchoice' := hsafe' s hrely' hadmits'
    cases hd : D.deferred (f.view D s) f.pending with
    | ok u =>
      rw [hd] at hr
      cases hr
      have hcommits := (hchoice.1 hd).1
      have hcommits' := (hchoice'.1 hd).1
      exact ⟨(hchoice'.1 hd).2, .inr (.inl ⟨⟨hcommits, hcommits'⟩, rfl⟩)⟩
    | error e =>
      rw [hd] at hr
      cases hr
      exact ⟨hchoice'.2 e hd, .inl rfl⟩
  | rollback next =>
    cases hr
    exact ⟨hsafe' s hrely', .inl rfl⟩

end

/-! ## The pool -/

section
variable {D : Database σ ω ε} {R : Discipline σ κ ω}
variable {calm : κ → LockMode → σ → σ → Prop} {inv : σ → Prop}
variable {program : Call → Program σ κ ω ι ε α} {terms terms' : Call → Terms σ κ ω}
variable {post : ℕ → Call → Post σ κ ω ε α}

/-- The invariant of the pool, with the further layer. -/
structure World.Watched (D : Database σ ω ε) (R : Discipline σ κ ω)
    (calm : κ → LockMode → σ → σ → Prop) (inv : σ → Prop) (terms terms' : Call → Terms σ κ ω)
    (post : ℕ → Call → Post σ κ ω ε α) (w : World σ κ ω ι ε α Call) : Prop where
  sound : w.Sound D R terms post
  kept : inv w.db
  session : ∀ {i : ℕ} {t : Session σ κ ω ι ε α Call}, w.sessions[i]? = some t →
    wp D (R.vigilant calm inv) (terms' t.call) t.program t.standing w.db fun _ _ _ => True

theorem stable_true : Post.Stable R (fun _ _ _ => True : Post σ κ ω ε α) :=
  fun _ _ _ _ _ _ => trivial

/-- What a session may count on while another one, which does not hold its locks, moves. -/
theorem World.Watched.rely (hL : Vigil D R calm inv program terms terms')
    {w : World σ κ ω ι ε α Call} (hw : w.Watched D R calm inv terms terms' post) {i j : ℕ}
    {t u : Session σ κ ω ι ε α Call} (hij : i ≠ j) (ht : w.sessions[i]? = some t)
    (hu : w.sessions[j]? = some u) {s' : σ} (hrely : Rely R u.standing.held w.db s')
    (hinv : inv s')
    (hchange : s' = w.db ∨ ((terms t.call).commits w.db t.standing.pending ∧
      s' = D.applyAll w.db t.standing.pending) ∨
        ∃ row, (terms t.call).draws w.db row ∧ s' = D.apply w.db row) :
    Rely (R.vigilant calm inv) u.standing.held w.db s' := by
  refine ⟨⟨hrely.inv, hinv⟩, hrely.grows, fun h hh => ⟨hrely.same h hh, ?_⟩⟩
  rcases hchange with rfl | ⟨hcommits, rfl⟩ | ⟨row, hdraws, rfl⟩
  · exact hL.guards.refl _ _ _
  · refine hL.guards.commits hw.sound.inv hcommits fun row hrow n hn hkey => ?_
    have hheld := (hw.sound.session ht).covered row hrow hn
    exact hw.sound.exclusive hij ht hu n hheld h hh hkey
  · exact hL.guards.draws hw.sound.inv hdraws

/-- The pool is watched over by each event. -/
theorem World.Watched.step [DecidableEq κ] (hV : Verified D R program terms post)
    (hL : Vigil D R calm inv program terms terms') {w w' : World σ κ ω ι ε α Call}
    {e : Event ι Call} (hw : w.Watched D R calm inv terms terms' post)
    (he : Admits terms w e) (he' : Admits terms' w e) (hs : w.step D program e = some w') :
    w'.Watched D R calm inv terms terms' post ∧
      Change D (fun call => (terms call).upon (terms' call)) w e w'.db := by
  have hsound' := (hw.sound.step hV he hs).1
  have hR : (R.vigilant calm inv).Regular := hL.guards.regular hV.discipline.toRegular
  cases e with
  | start call =>
    cases hs
    refine ⟨⟨hsound', hw.kept, fun {i t} ht => ?_⟩, .none⟩
    rcases getElem?_append_one ht with ht | ⟨-, rfl⟩
    · exact hw.session ht
    · exact hL.start call w.db hw.sound.inv hw.kept he'
  | run i x =>
    simp only [World.step, Option.bind_eq_some_iff] at hs
    obtain ⟨t, ht, hs⟩ := hs
    split at hs
    case isFalse => cases hs
    case isTrue =>
    obtain ⟨r, hr, rfl⟩ := Option.map_eq_some_iff.1 hs
    have hsession := hw.sound.session ht
    have hturn := turned hV.discipline (hV.lawful t.call) hw.sound.inv hsession.safe
      hsession.covered hsession.tidy hsession.earned (he t ht) hr
    obtain ⟨hsafe, hchange⟩ := turned_both hsession.safe (hw.session ht)
      (.refl hV.discipline.toRegular hw.sound.inv _) (.refl hR ⟨hw.sound.inv, hw.kept⟩ _)
      trivial (he t ht) (he' t ht) hr
    have hinv : inv r.1 := by
      rcases hchange with heq | ⟨hcommits, heq⟩ | ⟨row, hdraws, heq⟩
      · exact heq ▸ hw.kept
      · exact heq ▸ hL.commits hw.sound.inv hw.kept hcommits.1 hcommits.2
      · exact heq ▸ hL.draws hw.sound.inv hw.kept hdraws.1 hdraws.2
    refine ⟨⟨hsound', hinv, fun {j u} hu => ?_⟩, ?_⟩
    · rcases getElem?_set_some hu with ⟨-, rfl⟩ | ⟨hij, hu⟩
      · exact hsafe
      · have hrely := hw.sound.rely hij ht hu hturn.inv hturn.grows hturn.same
        exact wp_stable hR stable_true (hw.rely hL hij ht hu hrely hinv hturn.change)
          (hw.session hu)
    · rcases hchange with heq | ⟨hcommits, heq⟩ | ⟨row, hdraws, heq⟩
      · exact heq ▸ .none
      · exact heq ▸ .commit rfl ht hcommits
      · exact heq ▸ .draw rfl ht hdraws
  | kill i =>
    obtain ⟨t, ht, rfl⟩ := Option.map_eq_some_iff.1 hs
    refine ⟨⟨hsound', hw.kept, fun {j u} hu => ?_⟩, .none⟩
    rcases getElem?_set_some hu with ⟨-, rfl⟩ | ⟨-, hu⟩
    · trivial
    · exact hw.session hu

/-- The pool is watched over along a run. -/
theorem World.Watched.run [DecidableEq κ] (hV : Verified D R program terms post)
    (hL : Vigil D R calm inv program terms terms')
    {admits : World σ κ ω ι ε α Call → Event ι Call → Prop}
    (hadmits : ∀ w e, admits w e → Admits terms w e ∧ Admits terms' w e)
    {w w' : World σ κ ω ι ε α Call} (hrun : World.Run D program admits w w')
    (hw : w.Watched D R calm inv terms terms' post) :
    w'.Watched D R calm inv terms terms' post := by
  induction hrun with
  | refl => exact hw
  | tail _ he hs ih =>
    obtain ⟨he₁, he₂⟩ := hadmits _ _ he
    exact (ih.step hV hL he₁ he₂ hs).1

/-- A pool with nobody at work is watched over. -/
theorem World.Watched.idle {s : σ} (hs : R.inv s) (hinv : inv s) :
    World.Watched D R calm inv terms terms' post (⟨s, []⟩ : World σ κ ω ι ε α Call) :=
  ⟨.idle hs, hinv, fun h => absurd h (by simp)⟩

end

end Transactions
