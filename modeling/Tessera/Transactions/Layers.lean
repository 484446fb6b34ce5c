import Tessera.Transactions.Soundness
import Tessera.Transactions.Progress

/-!
# More to count on

A pool that is known to keep one discipline can be shown to keep a second invariant on top of
it.  The second proof may count on the first, and need not repeat what it has shown: it keeps
no locks and no tidiness of its own, and only looks at what is committed.

* `Discipline.upon` — a discipline with a second invariant and a second order;
* `Discipline.eased` — what the second proof has to keep to;
* `Terms.upon`, `wp_upon` — the two sets of terms together;
* `Terms.committing`, `Terms.allowing` — terms of a second proof;
* `Ready`, `wp_transaction_ready` — a transaction that ends with something it may commit;
* `Layer`, `Verified.upon` — the pool keeps both.
-/

namespace Transactions

variable {σ κ ω ι ε α β Call : Type}

/-- A second invariant and a second order, to be counted on together with the first. -/
def Discipline.upon (R : Discipline σ κ ω) (inv : σ → Prop) (grows : σ → σ → Prop) :
    Discipline σ κ ω where
  inv s := R.inv s ∧ inv s
  grows s s' := R.grows s s' ∧ grows s s'
  same := R.same
  tidy := R.tidy
  needs := R.needs

/-- As much to count on, and nothing to keep to between two commits. -/
def Discipline.eased (R : Discipline σ κ ω) : Discipline σ κ ω where
  inv := R.inv
  grows := R.grows
  same := R.same
  tidy _ := True
  needs _ := []

/-- Both sets of terms at once. -/
def Terms.upon (T T' : Terms σ κ ω) : Terms σ κ ω where
  commits s rows := T.commits s rows ∧ T'.commits s rows
  draws s row := T.draws s row ∧ T'.draws s row
  guard f h s := T.guard f h s ∧ T'.guard f h s
  starts s := T.starts s ∧ T'.starts s
  admits f st s := T.admits f st s ∧ T'.admits f st s

/-- Terms that only say what may be committed. -/
def Terms.committing (commits : σ → List ω → Prop) : Terms σ κ ω where
  commits := commits
  draws _ _ := True
  guard _ _ _ := True
  starts _ := True
  admits _ _ _ := True

/-- Terms that say what may be committed, in runs in which every commit is allowed. -/
def Terms.allowing (commits allows : σ → List ω → Prop) : Terms σ κ ω :=
  { Terms.committing commits with admits := fun f st s => st = .commit → allows s f.pending }

section
variable {D : Database σ ω ε} {R : Discipline σ κ ω} {T T' : Terms σ κ ω}
variable {inv : σ → Prop} {grows : σ → σ → Prop}
variable {f : Standing σ κ ω} {s s' : σ} {held : List (κ × LockMode)}

/-- What the others do on a layer is what they may do below it. -/
theorem Rely.of_upon (h : Rely (R.upon inv grows) held s s') : Rely R held s s' :=
  ⟨h.inv.1, h.grows.1, h.same⟩

/-- Whether views are tidy does not matter to what the others do. -/
theorem Rely.eased (h : Rely R held s s') : Rely R.eased held s s' :=
  ⟨h.inv, h.grows, h.same⟩

/-- A discipline stays regular when tidiness is dropped. -/
theorem Discipline.Regular.eased (h : R.Regular) : R.eased.Regular :=
  ⟨h.grows_refl, h.grows_trans, h.same_refl, h.same_trans⟩

/-- So it does with one more invariant, if the growth is a preorder. -/
theorem Discipline.Regular.upon (h : R.Regular) (hrefl : ∀ s, grows s s)
    (htrans : ∀ {s s' s''}, grows s s' → grows s' s'' → grows s s'') :
    (R.upon inv grows).Regular where
  grows_refl s := ⟨h.grows_refl s, hrefl s⟩
  grows_trans h₁ h₂ := ⟨h.grows_trans h₁.1 h₂.1, htrans h₁.2 h₂.2⟩
  same_refl := h.same_refl
  same_trans := h.same_trans

/-- It stays lawful, too. -/
theorem Discipline.Lawful.upon (h : R.Lawful D) (hrefl : ∀ s, grows s s)
    (htrans : ∀ {s s' s''}, grows s s' → grows s' s'' → grows s s'') :
    (R.upon inv grows).Lawful D where
  toRegular := h.toRegular.upon hrefl htrans
  same_apply := h.same_apply
  same_congr := h.same_congr
  tidy_inv hs := h.tidy_inv hs.1
  tidy_stable hcovered hs hrely := h.tidy_stable hcovered hs.1 hrely.of_upon

/-- A program that meets its precondition under the discipline, and under the terms of the
second layer, meets both. -/
theorem wp_upon {Q Q' : Post σ κ ω ε α} {p : Program σ κ ω ι ε α} :
    ∀ {f s}, wp D R T p f s Q → wp D (R.upon inv grows).eased T' p f s Q' →
      wp D (R.upon inv grows) (T.upon T') p f s fun r f s => Q r f s ∧ Q' r f s := by
  induction p with
  | done r => exact fun h h' => ⟨h, h'⟩
  | input next ih => exact fun h h' x => ih x (h x) (h' x)
  | query next ih => exact fun h h' s' hs => ih _ (h s' hs.of_upon) (h' s' hs.eased)
  | lock key mode next ih =>
    intro f s h h' s' hs
    have hfirst := h s' hs.of_upon
    have hsecond := h' s' hs.eased
    exact ⟨⟨hfirst.1, hsecond.1⟩, fun ha => ih _ (hfirst.2 ha.1) (hsecond.2 ha.2)⟩
  | write row next ih =>
    intro f s h h'
    refine ⟨h.1, fun s' hs ht => ?_⟩
    have hfirst := h.2 s' hs.of_upon ht
    exact ⟨hfirst.1, ih hfirst.2 (h'.2 s' hs.eased trivial).2⟩
  | instant row next ih =>
    intro f s h h' s' hs
    have hfirst := h s' hs.of_upon
    have hsecond := h' s' hs.eased
    exact ⟨⟨hfirst.1, hsecond.1⟩, ih _ hfirst.2 hsecond.2⟩
  | commit next ih =>
    intro f s h h' s' hs ha
    have hfirst := h s' hs.of_upon ha.1
    have hsecond := h' s' hs.eased ha.2
    refine ⟨fun ho => ?_, fun e he => ih _ (hfirst.2 e he) (hsecond.2 e he)⟩
    have hcommit := hfirst.1 ho
    have hcommit' := hsecond.1 ho
    exact ⟨⟨hcommit.1, hcommit'.1⟩, ih _ hcommit.2 hcommit'.2⟩
  | rollback next ih => exact fun h h' s' hs => ih (h s' hs.of_upon) (h' s' hs.eased)

/-- What is pending may be committed, now and whatever the others do. -/
def Ready (R : Discipline σ κ ω) (commits : σ → List ω → Prop) (f : Standing σ κ ω) (s : σ) :
    Prop :=
  Always R f.held s fun s' => commits s' f.pending

/-- A block ends with something that may be committed, or it fails. -/
def EndsReady (R : Discipline σ κ ω) (commits : σ → List ω → Prop) : Post σ κ ω ε α :=
  fun r f s => ∀ a, r = .ok a → Ready R commits f s

/-- After an error nothing need be ready to commit. -/
theorem endsReady_error {commits : σ → List ω → Prop} {e : ε} :
    EndsReady R commits (.error e : Except ε α) f s :=
  fun _ h => by cases h

/-- A transaction whose block ends ready. -/
theorem wp_transaction_ready {commits : σ → List ω → Prop} {body : Program σ κ ω ι ε α}
    (h : wp D R (Terms.committing commits) body f s (EndsReady R commits)) :
    wp D R (Terms.committing commits) (Program.transaction body) f s fun _ f' _ =>
      f'.pending = [] := by
  refine wp_transaction (wp_mono (fun r f s hr => ?_) h)
  cases r with
  | ok a => exact fun s' hs _ => ⟨fun _ => ⟨hr a rfl s' hs, rfl⟩, fun _ _ => rfl⟩
  | error e => exact fun _ _ => rfl

/-- A transaction whose block ends ready wherever its commit is allowed. -/
theorem wp_transaction_allowed {commits allows : σ → List ω → Prop}
    {body : Program σ κ ω ι ε α}
    (h : wp D R (Terms.allowing commits allows) body f s
      (EndsReady R fun s rows => allows s rows → commits s rows)) :
    wp D R (Terms.allowing commits allows) (Program.transaction body) f s fun _ f' _ =>
      f'.pending = [] := by
  refine wp_transaction (wp_mono (fun r f s hr => ?_) h)
  cases r with
  | ok a => exact fun s' hs ha => ⟨fun _ => ⟨hr a rfl s' hs (ha rfl), rfl⟩, fun _ _ => rfl⟩
  | error e => exact fun _ _ => rfl

end

/-! ## The pool -/

section
variable {D : Database σ ω ε} {R : Discipline σ κ ω}
variable {program : Call → Program σ κ ω ι ε α} {terms terms' : Call → Terms σ κ ω}
variable {post post' : ℕ → Call → Post σ κ ω ε α}
variable {inv : σ → Prop} {grows : σ → σ → Prop}

/-- What must be shown of each program for a second layer. -/
structure Layer (D : Database σ ω ε) (R : Discipline σ κ ω) (inv : σ → Prop)
    (grows : σ → σ → Prop) (program : Call → Program σ κ ω ι ε α)
    (terms terms' : Call → Terms σ κ ω) (post' : ℕ → Call → Post σ κ ω ε α) : Prop where
  refl : ∀ s, grows s s
  trans : ∀ {s s' s''}, grows s s' → grows s' s'' → grows s s''
  commits : ∀ {call s rows}, R.inv s → inv s → (terms call).commits s rows →
    (terms' call).commits s rows → inv (D.applyAll s rows) ∧ grows s (D.applyAll s rows)
  draws : ∀ {call s row}, R.inv s → inv s → (terms call).draws s row →
    (terms' call).draws s row → inv (D.apply s row) ∧ grows s (D.apply s row)
  stable : ∀ i call, (post' i call).Stable (R.upon inv grows)
  lost : ∀ i call f s, post' i call (.error D.lost) f s
  start : ∀ i call s, R.inv s → inv s → (terms call).starts s → (terms' call).starts s →
    wp D (R.upon inv grows).eased (terms' call) (program call) {} s (post' i call)

/-- A pool that keeps a discipline and a second layer keeps both. -/
theorem Verified.upon (hV : Verified D R program terms post)
    (hL : Layer D R inv grows program terms terms' post') :
    Verified D (R.upon inv grows) program (fun call => (terms call).upon (terms' call))
      fun i call r f s => post i call r f s ∧ post' i call r f s where
  discipline := hV.discipline.upon hL.refl hL.trans
  lawful call :=
    { commits_inv := fun hs h =>
        ⟨(hV.lawful call).commits_inv hs.1 h.1, (hL.commits hs.1 hs.2 h.1 h.2).1⟩
      commits_grows := fun hs h =>
        ⟨(hV.lawful call).commits_grows hs.1 h.1, (hL.commits hs.1 hs.2 h.1 h.2).2⟩
      draws_inv := fun hs h =>
        ⟨(hV.lawful call).draws_inv hs.1 h.1, (hL.draws hs.1 hs.2 h.1 h.2).1⟩
      draws_grows := fun hs h =>
        ⟨(hV.lawful call).draws_grows hs.1 h.1, (hL.draws hs.1 hs.2 h.1 h.2).2⟩
      draws_free := fun h => (hV.lawful call).draws_free h.1 }
  stable i call r f s s' hs h :=
    ⟨hV.stable i call r f s s' hs.of_upon h.1, hL.stable i call r f s s' hs h.2⟩
  lost i call f s := ⟨hV.lost i call f s, hL.lost i call f s⟩
  start i call s hs hstart :=
    wp_upon (hV.start i call s hs.1 hstart.1) (hL.start i call s hs.1 hs.2 hstart.1 hstart.2)

end

end Transactions
