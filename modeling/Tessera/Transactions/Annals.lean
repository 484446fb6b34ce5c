import Tessera.Transactions.Within
import Tessera.Transactions.Soundness

/-!
# What a session has taken in before it commits

A weakest precondition speaks about the state in which a session commits, not about the moments
at which it read what it commits, nor about what it had committed when it answers.  Those are
recorded here: the readings from outside, the committed states that a session took in and the
writes that it committed, in order, each one at a moment of the run.

* `Moment` — one thing taken in, or committed; `Program.Along` — what holds at each commit of a
  program and at its end, given the moments before it, with its rules;
* `Chronicle` — the moments of one session, placed in a run;
* `chronicled` — every session of a run has a chronicle that its program is consistent with.
-/

namespace Transactions

variable {σ κ ω ι ε α β Call : Type}

/-- One thing that a session takes in, a reading from outside or the committed state at one of
its statements; or what it commits. -/
inductive Moment (σ ω ι : Type) where
  | took (x : ι)
  | saw (s : σ)
  | wrote (rows : List ω)

/-- Nothing is asked of a commit. -/
abbrev anyCommit (_ : List (Moment σ ω ι)) (_ : Standing σ κ ω) : Prop := True

namespace Program

/-- What the next statement takes in or commits. -/
def moment (D : Database σ ω ε) (x : ι) (s : σ) (f : Standing σ κ ω) :
    Program σ κ ω ι ε α → List (Moment σ ω ι)
  | .input _ => [.took x]
  | .query _ | .lock _ _ _ => [.saw s]
  | .commit _ =>
    match D.deferred (f.view D s) f.pending with
    | .ok () => [.wrote f.pending]
    | .error _ => []
  | _ => []

/-- Whatever the program takes in, `Φ` holds at each of its commits and `Q` at its end. -/
def Along (D : Database σ ω ε) (Φ : List (Moment σ ω ι) → Standing σ κ ω → Prop) :
    Program σ κ ω ι ε α → List (Moment σ ω ι) → Standing σ κ ω →
      (Except ε α → List (Moment σ ω ι) → Standing σ κ ω → Prop) → Prop
  | .done r, h, f, Q => Q r h f
  | .input next, h, f, Q => ∀ x, (next x).Along D Φ (h ++ [.took x]) f Q
  | .query next, h, f, Q =>
    ∀ s, (next (f.view D s)).Along D Φ (h ++ [.saw s]) (f.saw (f.view D s)) Q
  | .lock key mode next, h, f, Q =>
    ∀ s, (next (f.view D s)).Along D Φ (h ++ [.saw s]) (f.locked key mode (f.view D s)) Q
  | .write row next, h, f, Q => next.Along D Φ h (f.wrote row) Q
  | .instant row next, h, f, Q => ∀ s, (next (f.view D (D.apply s row))).Along D Φ h f Q
  | .commit next, h, f, Q => Φ h f ∧
    (next (.ok ())).Along D Φ (h ++ [.wrote f.pending]) f.ended Q ∧
    ∀ e, (next (.error e)).Along D Φ h f.ended Q
  | .rollback next, h, f, Q => next.Along D Φ h f.ended Q

section
variable {D : Database σ ω ε} {Φ : List (Moment σ ω ι) → Standing σ κ ω → Prop}
variable {h : List (Moment σ ω ι)} {f : Standing σ κ ω}
variable {Q Q' : Except ε α → List (Moment σ ω ι) → Standing σ κ ω → Prop}

/-- A weaker postcondition is easier to reach. -/
theorem Along.mono (hQ : ∀ r h f, Q r h f → Q' r h f) {p : Program σ κ ω ι ε α} :
    ∀ {h f}, p.Along D Φ h f Q → p.Along D Φ h f Q' := by
  induction p with
  | done r => exact fun hp => hQ _ _ _ hp
  | input next ih => exact fun hp x => ih x (hp x)
  | query next ih => exact fun hp s => ih _ (hp s)
  | lock key mode next ih => exact fun hp s => ih _ (hp s)
  | write row next ih => exact fun hp => ih hp
  | instant row next ih => exact fun hp s => ih _ (hp s)
  | commit next ih => exact fun hp => ⟨hp.1, ih _ hp.2.1, fun e => ih _ (hp.2.2 e)⟩
  | rollback next ih => exact fun hp => ih hp

/-- Nothing is asked. -/
theorem Along.of_forall (hΦ : ∀ h f, Φ h f) (hQ : ∀ r h f, Q r h f) {p : Program σ κ ω ι ε α} :
    ∀ {h f}, p.Along D Φ h f Q := by
  induction p with
  | done r => exact hQ _ _ _
  | input next ih => exact fun x => ih x
  | query next ih => exact fun s => ih _
  | lock key mode next ih => exact fun s => ih _
  | write row next ih => exact ih
  | instant row next ih => exact fun s => ih _
  | commit next ih => exact ⟨hΦ _ _, ih _, fun e => ih _⟩
  | rollback next ih => exact ih

/-- Two postconditions that are reached are reached together. -/
theorem Along.and {p : Program σ κ ω ι ε α} :
    ∀ {h f}, p.Along D Φ h f Q → p.Along D Φ h f Q' →
      p.Along D Φ h f fun r h f => Q r h f ∧ Q' r h f := by
  induction p with
  | done r => exact fun hp hp' => ⟨hp, hp'⟩
  | input next ih => exact fun hp hp' x => ih x (hp x) (hp' x)
  | query next ih => exact fun hp hp' s => ih _ (hp s) (hp' s)
  | lock key mode next ih => exact fun hp hp' s => ih _ (hp s) (hp' s)
  | write row next ih => exact fun hp hp' => ih hp hp'
  | instant row next ih => exact fun hp hp' s => ih _ (hp s) (hp' s)
  | commit next ih =>
    intro h f hp hp'
    exact ⟨hp.1, ih _ hp.2.1 hp'.2.1, fun e => ih _ (hp.2.2 e) (hp'.2.2 e)⟩
  | rollback next ih => exact fun hp hp' => ih hp hp'

/-- A handler goes on from where its program ended. -/
theorem Along.handle {p : Program σ κ ω ι ε α} {k : Except ε α → Program σ κ ω ι ε β}
    {Q : Except ε β → List (Moment σ ω ι) → Standing σ κ ω → Prop} :
    ∀ {h f}, p.Along D Φ h f (fun r h f => (k r).Along D Φ h f Q) →
      (p.handle k).Along D Φ h f Q := by
  induction p with
  | done r => exact fun hp => hp
  | input next ih => exact fun hp x => ih x (hp x)
  | query next ih => exact fun hp s => ih _ (hp s)
  | lock key mode next ih => exact fun hp s => ih _ (hp s)
  | write row next ih => exact fun hp => ih hp
  | instant row next ih => exact fun hp s => ih _ (hp s)
  | commit next ih => exact fun hp => ⟨hp.1, ih _ hp.2.1, fun e => ih _ (hp.2.2 e)⟩
  | rollback next ih => exact fun hp => ih hp

/-- What remains to be shown after a value; an error passes by. -/
def Along.next (D : Database σ ω ε) (Φ : List (Moment σ ω ι) → Standing σ κ ω → Prop)
    (k : α → Program σ κ ω ι ε β)
    (Q : Except ε β → List (Moment σ ω ι) → Standing σ κ ω → Prop) :
    Except ε α → List (Moment σ ω ι) → Standing σ κ ω → Prop
  | .ok a, h, f => (k a).Along D Φ h f Q
  | .error e, h, f => Q (.error e) h f

/-- The second program goes on from where the first one returned. -/
theorem Along.bind {p : Program σ κ ω ι ε α} {k : α → Program σ κ ω ι ε β}
    {Q : Except ε β → List (Moment σ ω ι) → Standing σ κ ω → Prop}
    (hp : p.Along D Φ h f (Along.next D Φ k Q)) : (p >>= k).Along D Φ h f Q := by
  refine Along.handle (hp.mono fun r h f hr => ?_)
  cases r with
  | ok a => exact hr
  | error e => exact hr

/-- After a result the continuation runs. -/
theorem Along.next_ok {k : α → Program σ κ ω ι ε β} {a : α}
    {Q : Except ε β → List (Moment σ ω ι) → Standing σ κ ω → Prop}
    (hk : (k a).Along D Φ h f Q) : Along.next D Φ k Q (.ok a) h f := hk

/-- What holds after the first part, and is kept by the second. -/
theorem Along.seq {I : List (Moment σ ω ι) → Standing σ κ ω → Prop} {p : Program σ κ ω ι ε α}
    {k : α → Program σ κ ω ι ε β} (hp : p.Along D Φ h f fun _ => I)
    (hk : ∀ a h f, I h f → (k a).Along D Φ h f fun _ => I) :
    (p >>= k).Along D Φ h f fun _ => I := by
  refine Along.bind (hp.mono fun r h f hr => ?_)
  cases r with
  | ok a => exact hk a h f hr
  | error e => exact hr

/-- Nothing is asked of the first part. -/
theorem Along.after {p : Program σ κ ω ι ε α} {k : α → Program σ κ ω ι ε β}
    {Q : Except ε β → List (Moment σ ω ι) → Standing σ κ ω → Prop} (hΦ : ∀ h f, Φ h f)
    (hk : ∀ a h f, (k a).Along D Φ h f Q) (herror : ∀ e h f, Q (.error e) h f) :
    (p >>= k).Along D Φ h f Q := by
  refine Along.bind (Along.of_forall hΦ fun r h f => ?_)
  cases r with
  | ok a => exact hk a h f
  | error e => exact herror e h f

/-- A result that is changed changes no moment. -/
theorem Along.map {g : α → β} {p : Program σ κ ω ι ε α}
    {Q : Except ε β → List (Moment σ ω ι) → Standing σ κ ω → Prop}
    (hp : p.Along D Φ h f fun r h f => Q (r.map g) h f) : (g <$> p).Along D Φ h f Q := by
  refine Along.bind (hp.mono fun r h f hr => ?_)
  cases r with
  | ok a => exact hr
  | error e => exact hr

/-- A transaction commits in the end, or drops what it has written. -/
theorem Along.transaction {body : Program σ κ ω ι ε α}
    (hp : body.Along D Φ h f fun r h f => match r with
      | .ok a => Φ h f ∧ Q (.ok a) (h ++ [.wrote f.pending]) f.ended ∧
          ∀ e, Q (.error e) h f.ended
      | .error e => Q (.error e) h f.ended) :
    (Program.transaction body).Along D Φ h f Q := by
  refine Along.handle (hp.mono fun r h f hr => ?_)
  cases r with
  | ok a => exact hr
  | error e => exact hr

/-- A `SELECT` adds the moment of the state that it saw. -/
theorem along_select {view : σ → α}
    (hq : ∀ s, Q (.ok (view (f.view D s))) (h ++ [.saw s]) (f.saw (f.view D s))) :
    (Program.select view : Program σ κ ω ι ε α).Along D Φ h f Q := hq

/-- A write adds no moment until it is committed. -/
theorem along_put {row : ω} {Q : Except ε Unit → List (Moment σ ω ι) → Standing σ κ ω → Prop}
    (hq : Q (.ok ()) h (f.wrote row)) :
    (Program.put row : Program σ κ ω ι ε Unit).Along D Φ h f Q := hq

/-- The clock and a new id are moments. -/
theorem Along.bind_read {k : ι → Program σ κ ω ι ε α}
    (hk : ∀ x, (k x).Along D Φ (h ++ [.took x]) f Q) :
    ((Program.read : Program σ κ ω ι ε ι) >>= k).Along D Φ h f Q :=
  Along.bind fun x => hk x

theorem along_check {r : Except ε α} (hq : Q r h f) :
    (Program.check r : Program σ κ ω ι ε α).Along D Φ h f Q := hq

/-- `SELECT … FOR UPDATE` of at most one row: what is found is found in the state in which the
lock was granted. -/
theorem along_selectForLock {mode : LockMode} {key : α → κ} {view : σ → Option α}
    {Q : Except ε (Option α) → List (Moment σ ω ι) → Standing σ κ ω → Prop}
    (hnone : ∀ s₁, Q (.ok none) (h ++ [.saw s₁]) (f.saw (f.view D s₁)))
    (hlock : ∀ s₁ s₂ k, Q (.ok (view (f.view D s₂))) (h ++ [.saw s₁] ++ [.saw s₂])
      ((f.saw (f.view D s₁)).locked k mode (f.view D s₂))) :
    (Program.selectForLock mode key view : Program σ κ ω ι ε (Option α)).Along D Φ h f Q := by
  unfold Program.selectForLock
  refine Along.bind (along_select fun s₁ => ?_)
  cases view (f.view D s₁) with
  | none => exact hnone s₁
  | some row => exact fun s₂ => hlock s₁ s₂ (key row)

/-- Where a session stands after a part of a transaction. -/
theorem along_within {P R : ω → Prop} {p : Program σ κ ω ι ε α} :
    ∀ {h f}, p.Within P R → p.Along D Φ h f fun _ h' f' =>
      h <+: h' ∧ ∃ rows, f'.pending = f.pending ++ rows ∧ ∀ w ∈ rows, P w := by
  induction p with
  | done r => exact fun _ => ⟨List.prefix_refl _, [], by simp⟩
  | input next ih =>
    exact fun hp x => (ih x (hp x)).mono fun _ _ _ h => ⟨(List.prefix_append _ _).trans h.1, h.2⟩
  | query next ih =>
    exact fun hp s => (ih _ (hp _)).mono fun _ _ _ h => ⟨(List.prefix_append _ _).trans h.1, h.2⟩
  | lock key mode next ih =>
    exact fun hp s => (ih _ (hp _)).mono fun _ _ _ h => ⟨(List.prefix_append _ _).trans h.1, h.2⟩
  | write row next ih =>
    intro h f hp
    refine (ih hp.2).mono fun _ h' f' hend => ?_
    obtain ⟨honward, rows, hrows, hP⟩ := hend
    refine ⟨honward, row :: rows, ?_, List.forall_mem_cons.2 ⟨hp.1, hP⟩⟩
    rw [hrows]
    exact List.append_assoc _ _ _
  | instant row next ih => exact fun hp s => ih _ (hp.2 _)
  | commit next _ => exact fun hp => absurd hp id
  | rollback next _ => exact fun hp => absurd hp id

/-- A part of a transaction commits nothing. -/
theorem along_uncommitted {P R : ω → Prop} {p : Program σ κ ω ι ε α} :
    ∀ {h f}, p.Within P R → p.Along D Φ h f fun _ h' _ =>
      ∀ rows, .wrote rows ∈ h' → .wrote rows ∈ h := by
  have hmore : ∀ {h : List (Moment σ ω ι)} {m : Moment σ ω ι}, (∀ rows, m ≠ .wrote rows) →
      ∀ rows, .wrote rows ∈ h ++ [m] → .wrote rows ∈ h := by
    intro h m hm rows hmem
    rcases List.mem_append.1 hmem with hold | hnew
    · exact hold
    · exact absurd (List.mem_singleton.1 hnew).symm (hm rows)
  induction p with
  | done r => exact fun _ _ hmem => hmem
  | input next ih =>
    exact fun hp x => (ih x (hp x)).mono fun _ _ _ h rows hmem => hmore (by simp) rows (h rows hmem)
  | query next ih =>
    exact fun hp s => (ih _ (hp _)).mono fun _ _ _ h rows hmem => hmore (by simp) rows (h rows hmem)
  | lock key mode next ih =>
    exact fun hp s => (ih _ (hp _)).mono fun _ _ _ h rows hmem => hmore (by simp) rows (h rows hmem)
  | write row next ih => exact fun hp => ih hp.2
  | instant row next ih => exact fun hp s => ih _ (hp.2 _)
  | commit next _ => exact fun hp => absurd hp id
  | rollback next _ => exact fun hp => absurd hp id

end

end Program

/-! ## The moments of a run -/

section
variable [DecidableEq κ] {D : Database σ ω ε} {program : Call → Program σ κ ω ι ε α}
variable {admits : World σ κ ω ι ε α Call → Event ι Call → Prop}
variable {init w w' : World σ κ ω ι ε α Call} {i : ℕ} {c : Call}

/-- The moments of the `i`-th session, which runs the call `c`, up to a world of the run. -/
inductive Chronicle (D : Database σ ω ε) (program : Call → Program σ κ ω ι ε α)
    (admits : World σ κ ω ι ε α Call → Event ι Call → Prop)
    (init : World σ κ ω ι ε α Call) (i : ℕ) (c : Call) :
    List (Moment σ ω ι) → World σ κ ω ι ε α Call → Prop
  | start {w : World σ κ ω ι ε α Call} : World.Run D program admits init w →
      Chronicle D program admits init i c [] w
  | moment {h : List (Moment σ ω ι)} {w w' : World σ κ ω ι ε α Call} {x : ι}
      {t : Session σ κ ω ι ε α Call} : Chronicle D program admits init i c h w →
      w.sessions[i]? = some t → t.call = c → admits w (.run i x) →
      w.step D program (.run i x) = some w' →
      Chronicle D program admits init i c (h ++ t.program.moment D x w.db t.standing) w'
  | wait {h : List (Moment σ ω ι)} {w w' : World σ κ ω ι ε α Call} :
      Chronicle D program admits init i c h w → World.Run D program admits w w' →
      Chronicle D program admits init i c h w'

/-- A run that is written down is a run. -/
theorem Chronicle.run {h : List (Moment σ ω ι)} (hc : Chronicle D program admits init i c h w) :
    World.Run D program admits init w := by
  induction hc with
  | start hr => exact hr
  | moment _ _ _ ha hs ih => exact ih.tail ha hs
  | wait _ hr ih => exact ih.trans hr

/-- The next statement of the `i`-th session, which runs the call `c`, takes in `m`. -/
def TakesIn (D : Database σ ω ε) (program : Call → Program σ κ ω ι ε α) (i : ℕ) (c : Call)
    (m : Moment σ ω ι) (w w' : World σ κ ω ι ε α Call) : Prop :=
  ∃ x t, w.sessions[i]? = some t ∧ t.call = c ∧ t.program.moment D x w.db t.standing = [m] ∧
    w.step D program (.run i x) = some w'

/-- A state that was seen is the committed state of the moment. -/
theorem TakesIn.saw_db {s : σ} (h : TakesIn D program i c (.saw s) w w') : w.db = s := by
  obtain ⟨x, t, -, -, hm, -⟩ := h
  cases hp : t.program with
  | query next => rw [hp] at hm; cases hm; rfl
  | lock key mode next => rw [hp] at hm; cases hm; rfl
  | commit next =>
    rw [hp] at hm
    simp only [Program.moment] at hm
    split at hm <;> cases hm
  | _ => rw [hp] at hm; cases hm

/-- What a sound pool commits is on the terms of the call, and is applied. -/
theorem World.Sound.wrote {R : Discipline σ κ ω} {terms : Call → Terms σ κ ω}
    {post : ℕ → Call → Post σ κ ω ε α} (hw : w.Sound D R terms post) (hR : R.Regular)
    {rows : List ω} (h : TakesIn D program i c (.wrote rows) w w')
    (ha : ∀ x, Admits terms w (.run i x)) :
    (terms c).commits w.db rows ∧ w'.db = D.applyAll w.db rows := by
  obtain ⟨x, t, ht, rfl, hm, hs⟩ := h
  have hsafe := (hw.session ht).safe
  have hadmits := ha x t ht
  cases hp : t.program with
  | commit next =>
    rw [hp] at hm hsafe hadmits
    simp only [Program.moment] at hm
    split at hm
    case h_2 => cases hm
    case h_1 hd =>
    cases hm
    refine ⟨((hsafe w.db (.refl hR hw.inv _) hadmits).1 hd).1, ?_⟩
    simp only [World.step, ht, Option.bind_some] at hs
    split at hs
    case isFalse => cases hs
    case isTrue =>
    rw [hp] at hs
    simp only [Program.turn, hd, Option.map_some, Option.some.injEq] at hs
    rw [← hs]
    rfl
  | _ => rw [hp] at hm; cases hm

/-- Each moment of a chronicle is one of the run, with what came before it. -/
theorem Chronicle.split {h : List (Moment σ ω ι)} (hc : Chronicle D program admits init i c h w)
    {h₁ h₂ : List (Moment σ ω ι)} {m : Moment σ ω ι} (hsplit : h = h₁ ++ m :: h₂) :
    ∃ w₁ w₂ x, Chronicle D program admits init i c h₁ w₁ ∧ TakesIn D program i c m w₁ w₂ ∧
      admits w₁ (.run i x) ∧ World.Run D program admits w₂ w := by
  induction hc generalizing h₂ with
  | start _ => simp at hsplit
  | @moment h w w' x t hc ht hcall ha hs ih =>
    have hlast : t.program.moment D x w.db t.standing = [] ∨
        ∃ m', t.program.moment D x w.db t.standing = [m'] := by
      cases t.program with
      | commit next =>
        simp only [Program.moment]
        split <;> simp
      | _ => simp [Program.moment]
    rcases hlast with hnone | ⟨m', hm'⟩
    · rw [hnone, List.append_nil] at hsplit
      obtain ⟨w₁, w₂, y, h₁', hm, hy, hr⟩ := ih hsplit
      exact ⟨w₁, w₂, y, h₁', hm, hy, hr.tail ha hs⟩
    · rw [hm'] at hsplit
      rcases List.eq_nil_or_concat h₂ with rfl | ⟨h₂', m₂, rfl⟩
      · -- the moment is the last one
        obtain ⟨rfl, hm⟩ := List.append_inj' hsplit rfl
        rw [hm] at hm'
        exact ⟨w, w', x, hc, ⟨x, t, ht, hcall, hm', hs⟩, ha, .refl _⟩
      · rw [List.concat_eq_append, ← List.cons_append, ← List.append_assoc] at hsplit
        obtain ⟨w₁, w₂, y, h₁', hm, hy, hr⟩ := ih (List.append_inj' hsplit rfl).1
        exact ⟨w₁, w₂, y, h₁', hm, hy, hr.tail ha hs⟩
  | wait hc hr ih =>
    obtain ⟨w₁, w₂, y, h₁', hm, hy, hr'⟩ := ih hsplit
    exact ⟨w₁, w₂, y, h₁', hm, hy, hr'.trans hr⟩

/-- What a session still does is consistent with what it has taken in. -/
def Recorded (D : Database σ ω ε) (program : Call → Program σ κ ω ι ε α)
    (admits : World σ κ ω ι ε α Call → Event ι Call → Prop)
    (Φ : Call → List (Moment σ ω ι) → Standing σ κ ω → Prop)
    (Q : Call → Except ε α → List (Moment σ ω ι) → Standing σ κ ω → Prop)
    (init w : World σ κ ω ι ε α Call) : Prop :=
  ∀ i t, w.sessions[i]? = some t → ∃ h, Chronicle D program admits init i t.call h w ∧
    t.program.Along D (Φ t.call) h t.standing (Q t.call)

omit [DecidableEq κ] in
/-- After its next statement a session is consistent with one moment more. -/
theorem Program.Along.turn {Φ : List (Moment σ ω ι) → Standing σ κ ω → Prop}
    {p : Program σ κ ω ι ε α} {x : ι} {s : σ} {f : Standing σ κ ω} {h : List (Moment σ ω ι)}
    {r : σ × Program σ κ ω ι ε α × Standing σ κ ω}
    {Q : Except ε α → List (Moment σ ω ι) → Standing σ κ ω → Prop}
    (hp : p.Along D Φ h f Q) (hr : p.turn D x s f = some r) :
    r.2.1.Along D Φ (h ++ p.moment D x s f) r.2.2 Q := by
  cases p with
  | done result => cases hr
  | input next => cases hr; exact hp x
  | query next => cases hr; exact hp s
  | lock key mode next => cases hr; exact hp s
  | write row next =>
    cases hr
    change next.Along D Φ (h ++ []) (f.wrote row) _
    rwa [List.append_nil]
  | instant row next => cases hr; simpa [Program.moment] using hp s
  | commit next =>
    simp only [Program.turn] at hr
    simp only [Program.moment]
    cases hd : D.deferred (f.view D s) f.pending with
    | ok u =>
      rw [hd] at hr
      cases hr
      exact hp.2.1
    | error e =>
      rw [hd] at hr
      cases hr
      simpa using hp.2.2 e
  | rollback next =>
    cases hr
    change next.Along D Φ (h ++ []) f.ended _
    rwa [List.append_nil]

/-- One more event, written down. -/
theorem Recorded.step {Φ : Call → List (Moment σ ω ι) → Standing σ κ ω → Prop}
    {Q : Call → Except ε α → List (Moment σ ω ι) → Standing σ κ ω → Prop}
    (hΦ : ∀ c, (program c).Along D (Φ c) [] {} (Q c)) (hlost : ∀ c h f, Q c (.error D.lost) h f)
    (hrun : World.Run D program admits init w) (hw : Recorded D program admits Φ Q init w)
    {e : Event ι Call} (ha : admits w e) (hs : w.step D program e = some w') :
    Recorded D program admits Φ Q init w' := by
  have hone : World.Run D program admits w w' := .tail (.refl w) ha hs
  cases e with
  | start c =>
    cases hs
    intro i t ht
    rcases getElem?_append_one ht with ht | ⟨-, rfl⟩
    · obtain ⟨h, hc, hp⟩ := hw i t ht
      exact ⟨h, hc.wait hone, hp⟩
    · exact ⟨[], .start (hrun.trans hone), hΦ c⟩
  | run j x =>
    have hs' := hs
    simp only [World.step, Option.bind_eq_some_iff] at hs
    obtain ⟨u, hu, hs⟩ := hs
    split at hs
    case isFalse => cases hs
    case isTrue =>
    obtain ⟨r, hr, rfl⟩ := Option.map_eq_some_iff.1 hs
    intro i t ht
    rcases getElem?_set_some ht with ⟨rfl, rfl⟩ | ⟨-, ht⟩
    · obtain ⟨h, hc, hp⟩ := hw j u hu
      exact ⟨_, hc.moment hu rfl ha hs', hp.turn hr⟩
    · obtain ⟨h, hc, hp⟩ := hw i t ht
      exact ⟨h, hc.wait hone, hp⟩
  | kill j =>
    simp only [World.step, Option.map_eq_some_iff] at hs
    obtain ⟨u, hu, rfl⟩ := hs
    intro i t ht
    rcases getElem?_set_some ht with ⟨rfl, rfl⟩ | ⟨-, ht⟩
    · obtain ⟨h, hc, -⟩ := hw j u hu
      exact ⟨h, hc.wait hone, hlost _ _ _⟩
    · obtain ⟨h, hc, hp⟩ := hw i t ht
      exact ⟨h, hc.wait hone, hp⟩

/-- What the next statement of a session does to the committed state, with the program that
does it. -/
theorem World.Sound.acts {R : Discipline σ κ ω} {terms : Call → Terms σ κ ω}
    {post : ℕ → Call → Post σ κ ω ε α} (hw : w.Sound D R terms post) (hR : R.Regular)
    {x : ι} (he : Admits terms w (.run i x)) (hs : w.step D program (.run i x) = some w') :
    ∃ t, w.sessions[i]? = some t ∧ (w'.db = w.db ∨
      (∃ next, t.program = .commit next ∧ (terms t.call).commits w.db t.standing.pending ∧
        w'.db = D.applyAll w.db t.standing.pending) ∨
      ∃ row, (terms t.call).draws w.db row ∧ w'.db = D.apply w.db row) := by
  simp only [World.step, Option.bind_eq_some_iff] at hs
  obtain ⟨t, ht, hs⟩ := hs
  split at hs
  case isFalse => cases hs
  case isTrue =>
  obtain ⟨r, hr, rfl⟩ := Option.map_eq_some_iff.1 hs
  refine ⟨t, ht, ?_⟩
  have hrely := Rely.refl hR hw.inv t.standing.held
  have hsafe := (hw.session ht).safe
  have hadmits := he t ht
  cases hp : t.program with
  | done result => rw [hp] at hr; cases hr
  | input next => rw [hp] at hr; cases hr; exact .inl rfl
  | query next => rw [hp] at hr; cases hr; exact .inl rfl
  | lock key mode next => rw [hp] at hr; cases hr; exact .inl rfl
  | write row next => rw [hp] at hr; cases hr; exact .inl rfl
  | instant row next =>
    rw [hp] at hr hsafe
    cases hr
    exact .inr (.inr ⟨row, (hsafe w.db hrely).1, rfl⟩)
  | commit next =>
    rw [hp] at hr hsafe hadmits
    simp only [Program.turn] at hr
    cases hd : D.deferred (t.standing.view D w.db) t.standing.pending with
    | ok u =>
      rw [hd] at hr
      cases hr
      exact .inr (.inl ⟨next, rfl, ((hsafe w.db hrely hadmits).1 hd).1, rfl⟩)
    | error e =>
      rw [hd] at hr
      cases hr
      exact .inl rfl
  | rollback next => rw [hp] at hr; cases hr; exact .inl rfl

/-- Every session of a run has a chronicle that its program is consistent with. -/
theorem chronicled {Φ : Call → List (Moment σ ω ι) → Standing σ κ ω → Prop}
    {Q : Call → Except ε α → List (Moment σ ω ι) → Standing σ κ ω → Prop}
    (hΦ : ∀ c, (program c).Along D (Φ c) [] {} (Q c)) (hlost : ∀ c h f, Q c (.error D.lost) h f)
    (hinit : init.sessions = []) (hrun : World.Run D program admits init w) :
    Recorded D program admits Φ Q init w := by
  induction hrun with
  | refl =>
    intro i t ht
    rw [hinit] at ht
    cases ht
  | tail hrun ha hs ih => exact ih.step hΦ hlost hrun ha hs

end

end Transactions
