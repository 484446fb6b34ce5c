import Tessera.Transactions.Within
import Mathlib.Algebra.BigOperators.Group.List.Basic

/-!
# What the writes of a transaction owe each other

Some writes call for others: a change calls for its announcement.  Each write is given a value in a
commutative group, positive for what it calls for and negative for what it answers, so that a
transaction that leaves nothing unanswered commits writes that add up to zero.

* `tally` — what a list of writes adds up to;
* `Adds` — a part of a program adds a known amount to what is pending;
* `wp_adds_bind`, `wp_adds_within`, `wp_adds_put`, `wp_adds_forEach` — the rules;
* `wp_lockEach` — what a scan returns.
-/

namespace Transactions

open Program

variable {σ κ ω ι ε α β M : Type} [AddCommGroup M]

/-- What a list of writes adds up to. -/
def tally (due : ω → M) (rows : List ω) : M := (rows.map due).sum

section
variable {due : ω → M} {rows rows' : List ω} {row : ω}

@[simp] theorem tally_nil : tally due [] = 0 := rfl

/-- The tally of two lists is the sum of theirs. -/
theorem tally_append : tally due (rows ++ rows') = tally due rows + tally due rows' := by
  unfold tally
  rw [List.map_append, List.sum_append]

theorem tally_singleton : tally due [row] = due row := by
  unfold tally
  simp

/-- One more row at the end. -/
theorem tally_snoc : tally due (rows ++ [row]) = tally due rows + due row := by
  rw [tally_append, tally_singleton]

/-- Rows without dues add up to nothing. -/
theorem tally_eq_zero (h : ∀ w ∈ rows, due w = 0) : tally due rows = 0 := by
  refine List.sum_eq_zero fun m hm => ?_
  obtain ⟨w, hw, rfl⟩ := List.mem_map.1 hm
  exact h w hw

end

section
variable {D : Database σ ω ε} {R : Discipline σ κ ω} {T : Terms σ κ ω} {P P' Q : ω → Prop}
variable {due : ω → M} {f f' : Standing σ κ ω} {s s' : σ} {d d' : M}

/-- A part of a program writes rows that satisfy `P` and add up to `d`, or it fails. -/
def Adds (R : Discipline σ κ ω) (P : ω → Prop) (due : ω → M) (f : Standing σ κ ω) (s : σ) (d : M) :
    Post σ κ ω ε α :=
  fun r f' s' => ∀ a, r = .ok a →
    Onward R P f s f' s' ∧ tally due f'.pending = tally due f.pending + d

/-- After an error nothing is promised. -/
theorem adds_error {e : ε} : Adds R P due f s d (.error e : Except ε α) f' s' :=
  fun _ h => by cases h

/-- Nothing is added. -/
theorem adds_refl (hR : R.Regular) (hs : R.inv s) {a : α} :
    Adds R P due f s 0 (.ok a : Except ε α) f s :=
  fun _ _ => ⟨.refl hR hs, (add_zero _).symm⟩

/-- Rows of one kind are of any kind that includes it. -/
theorem Adds.mono {r : Except ε α} (hP : ∀ w, P w → P' w) (h : Adds R P due f s d r f' s') :
    Adds R P' due f s d r f' s' :=
  fun a ha => ⟨(h a ha).1.mono hP, (h a ha).2⟩

/-- A part after another one. -/
theorem wp_adds_after (hR : R.Regular) {p : Program σ κ ω ι ε α}
    (ho : Onward R P f s f' s') (htally : tally due f'.pending = tally due f.pending + d)
    (hp : wp D R T p f' s' (Adds R P due f' s' d')) :
    wp D R T p f' s' (Adds R P due f s (d + d')) := by
  refine wp_mono (fun r f'' s'' h a ha => ?_) hp
  obtain ⟨ho', htally'⟩ := h a ha
  refine ⟨ho.trans hR ho', ?_⟩
  rw [htally', htally, add_assoc]

/-- The amounts of two parts are added. -/
theorem wp_adds_bind (hR : R.Regular) {p : Program σ κ ω ι ε α} {k : α → Program σ κ ω ι ε β}
    (hp : wp D R T p f s (Adds R P due f s d))
    (hk : ∀ a f' s', Onward R P f s f' s' → wp D R T (k a) f' s' (Adds R P due f' s' d')) :
    wp D R T (p >>= k) f s (Adds R P due f s (d + d')) := by
  refine wp_bind.2 (wp_mono (fun r f' s' h => ?_) hp)
  cases r with
  | error e => exact adds_error
  | ok a =>
    obtain ⟨ho, htally⟩ := h a rfl
    exact wp_adds_after hR ho htally (hk a f' s' ho)

/-- What follows once nothing has been written. -/
theorem wp_adds_still (hR : R.Regular) {p : Program σ κ ω ι ε α}
    (ho : Onward R (fun _ => False) f s f' s') (hp : wp D R T p f' s' (Adds R P due f' s' d)) :
    wp D R T p f' s' (Adds R P due f s d) := by
  rw [← zero_add d]
  exact wp_adds_after hR (ho.mono fun _ h => h.elim) (by rw [ho.still, add_zero]) hp

/-- A part whose writes owe nothing. -/
theorem wp_adds_within (hL : Lax D R T Q) (hs : R.inv s) {p : Program σ κ ω ι ε α}
    (hp : p.Within P' Q) (hP : ∀ w, P' w → P w ∧ due w = 0) :
    wp D R T p f s (Adds R P due f s 0) := by
  refine wp_mono (fun r f' s' h a _ => ⟨h.mono fun w hw => (hP w hw).1, ?_⟩)
    (wp_within hL hs hp)
  obtain ⟨rows, hrows, hall⟩ := h.pending
  rw [hrows, tally_append, tally_eq_zero fun w hw => (hP w (hall w hw)).2]

/-- A part whose writes owe nothing, before the rest. -/
theorem wp_adds_thenWithin (hL : Lax D R T Q) (hs : R.inv s) {p : Program σ κ ω ι ε α}
    {k : α → Program σ κ ω ι ε β} (hp : p.Within P' Q) (hP : ∀ w, P' w → P w ∧ due w = 0)
    (hk : ∀ a f' s', Onward R P f s f' s' → wp D R T (k a) f' s' (Adds R P due f' s' d)) :
    wp D R T (p >>= k) f s (Adds R P due f s d) := by
  rw [← zero_add d]
  exact wp_adds_bind hL.regular (wp_adds_within hL hs hp hP) hk

/-- One row is written. -/
theorem wp_adds_put (hL : Lax D R T Q) {row : ω} (hrow : P row) :
    wp D R T (put row : Program σ κ ω ι ε Unit) f s (Adds R P due f s (due row)) := by
  refine wp_put (by rw [hL.needs]; exact List.nil_subset _) (fun _ _ _ => hL.tidy _)
    fun s' hs' a _ => ⟨⟨⟨hs', List.Subset.refl _⟩, ⟨[row], rfl, ?_⟩, List.prefix_refl _⟩, ?_⟩
  · exact fun w hw => List.mem_singleton.1 hw ▸ hrow
  · exact tally_snoc

/-- What a program ends with, shown in two parts. -/
theorem wp_and {Q' Q'' : Post σ κ ω ε α} {p : Program σ κ ω ι ε α} :
    ∀ {f s}, wp D R T p f s Q' → wp D R T p f s Q'' →
      wp D R T p f s fun r f s => Q' r f s ∧ Q'' r f s := by
  induction p with
  | done r => exact fun h h' => ⟨h, h'⟩
  | input next ih => exact fun h h' x => ih x (h x) (h' x)
  | query next ih => exact fun h h' s' hs => ih _ (h s' hs) (h' s' hs)
  | lock key mode next ih =>
    exact fun h h' s' hs => ⟨(h s' hs).1, fun ha => ih _ ((h s' hs).2 ha) ((h' s' hs).2 ha)⟩
  | write row next ih =>
    exact fun h h' => ⟨h.1, fun s' hs ht => ⟨(h.2 s' hs ht).1, ih (h.2 s' hs ht).2 (h'.2 s' hs ht).2⟩⟩
  | instant row next ih =>
    exact fun h h' s' hs => ⟨(h s' hs).1, ih _ (h s' hs).2 (h' s' hs).2⟩
  | commit next ih =>
    intro f s h h' s' hs ha
    refine ⟨fun ho => ⟨((h s' hs ha).1 ho).1, ?_⟩, fun e he => ?_⟩
    · exact ih _ ((h s' hs ha).1 ho).2 ((h' s' hs ha).1 ho).2
    · exact ih _ ((h s' hs ha).2 e he) ((h' s' hs ha).2 e he)
  | rollback next ih => exact fun h h' s' hs => ih (h s' hs) (h' s' hs)

/-- A scan returns rows that it was given, each once, as they were found again. -/
theorem wp_lockEach (hguard : ∀ f k s, T.guard f k s) {γ : Type} (g : β → γ) (found : β → Prop)
    {key : β → κ} {again : β → σ → Option β}
    (hagain : ∀ row s row', again row s = some row' → g row' = g row ∧ found row') :
    ∀ {rows : List β} {f s}, wp D R T (lockEach key again rows : Program σ κ ω ι ε (List β)) f s
      fun r _ _ => ∀ rows', r = .ok rows' →
        (rows'.map g).Sublist (rows.map g) ∧ ∀ row ∈ rows', found row
  | [], _, _ => wp_pure fun _ h => by cases h; exact ⟨.slnil, List.forall_mem_nil _⟩
  | row :: rows, f, s => by
    refine wp_bind.2 (wp_acquire (fun _ _ => hguard _ _ _) fun s' _ _ => onValue_ok ?_)
    refine wp_bind.2 (wp_mono (fun r _ _ hr => ?_) (wp_lockEach hguard g found hagain))
    cases r with
    | error e => exact fun _ h => by cases h
    | ok rest =>
      obtain ⟨hsub, hfound⟩ := hr rest rfl
      refine onValue_ok (wp_pure fun rows' h => ?_)
      cases h
      cases hrow : again row (f.view D s') with
      | none => exact ⟨hsub.cons _, hfound⟩
      | some row' =>
        obtain ⟨hkey, hrow'⟩ := hagain _ _ _ hrow
        refine ⟨?_, List.forall_mem_cons.2 ⟨hrow', hfound⟩⟩
        change (g row' :: rest.map g).Sublist (g row :: rows.map g)
        rw [hkey]
        exact hsub.cons_cons _

/-- A list of parts that add nothing. -/
theorem wp_adds_forEach (due : ω → M) (P : ω → Prop) (hR : R.Regular) (hs : R.inv s)
    {body : β → Program σ κ ω ι ε Unit} {rows : List β}
    (I : List β → Standing σ κ ω → σ → Prop) (hI : I [] f s)
    (hbody : ∀ done b after, rows = done ++ b :: after → ∀ f' s', R.inv s' → I done f' s' →
      wp D R T (body b) f' s' fun r f'' s'' =>
        Adds R P due f' s' 0 r f'' s'' ∧ (r = .ok () → I (done ++ [b]) f'' s'')) :
    wp D R T (forEach body rows) f s fun r f' s' =>
      Adds R P due f s 0 r f' s' ∧ (r = .ok () → I rows f' s') := by
  refine wp_forEach (fun done f' s' => (Onward R P f s f' s' ∧
    tally due f'.pending = tally due f.pending) ∧ I done f' s') [] ⟨⟨.refl hR hs, rfl⟩, hI⟩
    (fun done b after hsplit f' s' h => ?_) fun f' s' h => ?_
  · obtain ⟨⟨ho, htally⟩, hI'⟩ := h
    refine wp_mono (fun r f'' s'' h' => ?_)
      (hbody done b after (by simpa using hsplit) f' s' ho.rely.inv hI')
    cases r with
    | error e => exact ⟨adds_error, fun h => by cases h⟩
    | ok _ =>
      obtain ⟨ho', htally'⟩ := h'.1 () rfl
      exact ⟨⟨ho.trans hR ho', by rw [htally', add_zero, htally]⟩, h'.2 rfl⟩
  · refine ⟨fun _ _ => ⟨h.1.1, by rw [h.1.2, add_zero]⟩, fun _ => ?_⟩
    simpa using h.2

end

end Transactions
