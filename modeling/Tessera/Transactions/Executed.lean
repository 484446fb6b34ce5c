import Tessera.Transactions.Annals

/-!
# What a session takes in while events are executed

A run as a list of events has one sequence of moments for each of its sessions, with nothing left
out.  What a session still does, or what it has answered, is consistent with it.

* `World.moments` — the moments of a session in such a list, all of them;
* `World.along_moments` — what the session still does is consistent with them;
* `World.mem_moments` — each of them is taken in at a statement of the run.
-/

namespace Transactions

variable {σ κ ω ι ε α Call : Type}

/-- A statement takes in one thing at most. -/
theorem Program.moment_eq_singleton {D : Database σ ω ε} {p : Program σ κ ω ι ε α} {x : ι} {s : σ}
    {f : Standing σ κ ω} {m : Moment σ ω ι} (h : m ∈ p.moment D x s f) :
    p.moment D x s f = [m] := by
  have hone : (p.moment D x s f).length ≤ 1 := by
    cases p with
    | commit next =>
      simp only [Program.moment]
      split <;> simp
    | _ => simp [Program.moment]
  obtain ⟨m', hm'⟩ := List.length_eq_one_iff.1 (le_antisymm hone (List.length_pos_of_mem h))
  rw [hm'] at h ⊢
  rw [List.mem_singleton.1 h]

/-- What a session has answered with, once it has finished. -/
def Session.answer (t : Session σ κ ω ι ε α Call) : Option (Except ε α) :=
  match t.program with
  | .done r => some r
  | _ => none

/-- A session has answered when its program is done. -/
theorem Session.answer_eq_some {t : Session σ κ ω ι ε α Call} {r : Except ε α} :
    t.answer = some r ↔ t.program = .done r := by
  unfold Session.answer
  cases t.program with
  | done r' => simp
  | _ => simp

section
variable [DecidableEq κ] (D : Database σ ω ε) (program : Call → Program σ κ ω ι ε α)

/-- What one event adds to the moments of the `i`-th session. -/
def World.momentOf (w : World σ κ ω ι ε α Call) (i : ℕ) : Event ι Call → List (Moment σ ω ι)
  | .run j x =>
    if j = i ∧ (w.step D program (.run j x)).isSome = true then
      (w.sessions[j]?.map fun t => t.program.moment D x w.db t.standing).getD []
    else []
  | _ => []

/-- The moments of the `i`-th session while a list of events is executed. -/
def World.moments (i : ℕ) : World σ κ ω ι ε α Call → List (Event ι Call) → List (Moment σ ω ι)
  | _, [] => []
  | w, e :: rest => w.momentOf D program i e ++ moments i ((w.step D program e).getD w) rest

end

section
variable [DecidableEq κ] {D : Database σ ω ε} {program : Call → Program σ κ ω ι ε α}
variable {admits : World σ κ ω ι ε α Call → Event ι Call → Prop}
variable {w w' : World σ κ ω ι ε α Call} {i : ℕ} {e : Event ι Call}

/-- Two lists of events, one after the other. -/
theorem World.attempt_append (events events' : List (Event ι Call)) :
    w.attempt D program (events ++ events') =
      (w.attempt D program events).attempt D program events' := by
  induction events generalizing w with
  | nil => rfl
  | cons e rest ih => exact ih

/-- An event that adds a moment is a statement of the session. -/
theorem World.mem_momentOf {m : Moment σ ω ι} (h : m ∈ w.momentOf D program i e) :
    ∃ c w', TakesIn D program i c m w w' ∧ w.step D program e = some w' := by
  cases e with
  | run j x =>
    simp only [World.momentOf] at h
    split at h
    · rename_i hstep
      obtain ⟨rfl, hsome⟩ := hstep
      obtain ⟨w', hw'⟩ := Option.isSome_iff_exists.1 hsome
      cases ht : w.sessions[j]? with
      | none =>
        rw [ht] at h
        exact absurd h List.not_mem_nil
      | some t =>
        rw [ht] at h
        exact ⟨t.call, w', ⟨x, t, ht, rfl, Program.moment_eq_singleton h, hw'⟩, hw'⟩
    · exact absurd h List.not_mem_nil
  | start c => exact absurd h List.not_mem_nil
  | kill j => exact absurd h List.not_mem_nil

/-- A session that has not begun has no moments. -/
theorem World.momentOf_eq_nil (h : w.sessions[i]? = none) : w.momentOf D program i e = [] := by
  refine List.eq_nil_iff_forall_not_mem.2 fun m hm => ?_
  obtain ⟨c, w', ⟨x, t, ht, -⟩, -⟩ := World.mem_momentOf hm
  rw [h] at ht
  cases ht

/-- Each moment is taken in at a statement of the run. -/
theorem World.mem_moments {m : Moment σ ω ι} {events : List (Event ι Call)}
    (h : m ∈ w.moments D program i events) :
    ∃ c w₁ w₂, World.Run D program (fun _ _ => True) w w₁ ∧ TakesIn D program i c m w₁ w₂ ∧
      World.Run D program (fun _ _ => True) w₂ (w.attempt D program events) := by
  induction events generalizing w with
  | nil => exact absurd h List.not_mem_nil
  | cons e rest ih =>
    have hone : World.Run D program (fun _ _ => True) w ((w.step D program e).getD w) :=
      World.Run.attempt (fun _ _ => trivial) (.refl w) [e]
    rcases List.mem_append.1 h with h | h
    · obtain ⟨c, w', htakes, hs⟩ := World.mem_momentOf h
      refine ⟨c, w, w', .refl w, htakes, ?_⟩
      unfold World.attempt
      rw [hs]
      exact World.Run.attempt (fun _ _ => trivial) (.refl w') rest
    · obtain ⟨c, w₁, w₂, h₁, htakes, h₂⟩ := ih h
      exact ⟨c, w₁, w₂, hone.trans h₁, htakes, h₂⟩

/-! ## What a session still does -/

/-- What each session still does is consistent with what it has taken in. -/
structure World.Recalls (D : Database σ ω ε)
    (Φ : Call → List (Moment σ ω ι) → Standing σ κ ω → Prop)
    (Q : Call → Except ε α → List (Moment σ ω ι) → Standing σ κ ω → Prop)
    (w : World σ κ ω ι ε α Call) (past : ℕ → List (Moment σ ω ι)) : Prop where
  along : ∀ (i : ℕ) (t : Session σ κ ω ι ε α Call), w.sessions[i]? = some t →
    t.program.Along D (Φ t.call) (past i) t.standing (Q t.call)
  fresh : ∀ i : ℕ, w.sessions[i]? = none → past i = []

variable {Φ : Call → List (Moment σ ω ι) → Standing σ κ ω → Prop}
variable {Q : Call → Except ε α → List (Moment σ ω ι) → Standing σ κ ω → Prop}
variable {past : ℕ → List (Moment σ ω ι)}

/-- One more event adds its moments to those of its session. -/
theorem World.Recalls.step (hΦ : ∀ c, (program c).Along D (Φ c) [] {} (Q c))
    (hlost : ∀ c h f, Q c (.error D.lost) h f) (hw : w.Recalls D Φ Q past)
    (hs : w.step D program e = some w') :
    w'.Recalls D Φ Q fun i => past i ++ w.momentOf D program i e := by
  have hidle : (∀ j x, e ≠ .run j x) → (fun i => past i ++ w.momentOf D program i e) = past := by
    intro hne
    funext i
    cases e with
    | run j x => exact absurd rfl (hne j x)
    | _ => exact List.append_nil _
  cases e with
  | start c =>
    rw [hidle fun _ _ h => by cases h]
    cases hs
    refine ⟨fun i t ht => ?_, fun i hi => hw.fresh i ?_⟩
    · rcases getElem?_append_one ht with ht | ⟨rfl, rfl⟩
      · exact hw.along i t ht
      · rw [hw.fresh _ (List.getElem?_eq_none le_rfl)]
        exact hΦ c
    · rw [List.getElem?_eq_none_iff] at hi ⊢
      rw [List.length_append] at hi
      omega
  | kill j =>
    rw [hidle fun _ _ h => by cases h]
    simp only [World.step, Option.map_eq_some_iff] at hs
    obtain ⟨u, hu, rfl⟩ := hs
    refine ⟨fun i t ht => ?_, fun i hi => hw.fresh i ?_⟩
    · rcases getElem?_set_some ht with ⟨rfl, rfl⟩ | ⟨-, ht⟩
      · exact hlost _ _ _
      · exact hw.along i t ht
    · rw [List.getElem?_eq_none_iff] at hi ⊢
      simpa using hi
  | run j x =>
    have hstep := hs
    simp only [World.step, Option.bind_eq_some_iff] at hs
    obtain ⟨u, hu, hs⟩ := hs
    split at hs
    case isFalse => cases hs
    case isTrue =>
    obtain ⟨r, hr, rfl⟩ := Option.map_eq_some_iff.1 hs
    have hmoment : ∀ i, w.momentOf D program i (.run j x) =
        if j = i then u.program.moment D x w.db u.standing else [] := by
      intro i
      simp only [World.momentOf]
      rw [hstep, hu]
      simp
    refine ⟨fun i t ht => ?_, fun i hi => ?_⟩
    · rw [hmoment]
      rcases getElem?_set_some ht with ⟨rfl, rfl⟩ | ⟨hne, ht⟩
      · rw [if_pos rfl]
        exact (hw.along j u hu).turn hr
      · rw [if_neg hne, List.append_nil]
        exact hw.along i t ht
    · have hnone : w.sessions[i]? = none := by
        rw [List.getElem?_eq_none_iff] at hi ⊢
        simpa using hi
      rw [hw.fresh i hnone, World.momentOf_eq_nil hnone]
      rfl

/-- What each session still does, after a list of events, is consistent with its moments. -/
theorem World.Recalls.attempt (hΦ : ∀ c, (program c).Along D (Φ c) [] {} (Q c))
    (hlost : ∀ c h f, Q c (.error D.lost) h f) (hw : w.Recalls D Φ Q past)
    (events : List (Event ι Call)) :
    (w.attempt D program events).Recalls D Φ Q
      fun i => past i ++ w.moments D program i events := by
  induction events generalizing w past with
  | nil =>
    have hnil : (fun i => past i ++ w.moments D program i []) = past :=
      funext fun i => List.append_nil _
    rw [hnil]
    exact hw
  | cons e rest ih =>
    have hassoc : (fun i => past i ++ w.moments D program i (e :: rest)) = fun i =>
        past i ++ w.momentOf D program i e ++
          ((w.step D program e).getD w).moments D program i rest :=
      funext fun i => (List.append_assoc _ _ _).symm
    rw [hassoc]
    refine ih ?_
    cases hs : w.step D program e with
    | some w' => exact hw.step hΦ hlost hs
    | none =>
      -- an event that is not possible adds nothing
      have hnone : (fun i => past i ++ w.momentOf D program i e) = past := by
        funext i
        have hnil : w.momentOf D program i e = [] := by
          refine List.eq_nil_iff_forall_not_mem.2 fun m hm => ?_
          obtain ⟨c, w', -, hs'⟩ := World.mem_momentOf hm
          rw [hs] at hs'
          cases hs'
        rw [hnil, List.append_nil]
      rw [hnone]
      exact hw

/-- What a session still does is consistent with all its moments. -/
theorem World.along_moments (hΦ : ∀ c, (program c).Along D (Φ c) [] {} (Q c))
    (hlost : ∀ c h f, Q c (.error D.lost) h f) {init : World σ κ ω ι ε α Call}
    (hinit : init.sessions = []) (events : List (Event ι Call)) {t : Session σ κ ω ι ε α Call}
    (ht : (init.attempt D program events).sessions[i]? = some t) :
    t.program.Along D (Φ t.call) (init.moments D program i events) t.standing (Q t.call) := by
  have hempty : init.Recalls D Φ Q fun _ => [] :=
    ⟨fun i t ht => by simp [hinit] at ht, fun _ _ => rfl⟩
  exact (hempty.attempt hΦ hlost events).along i t ht

end

end Transactions
