import Tessera.Transactions.Soundness

/-!
# Following one session

What a session that never waits goes through, whatever the other sessions do in between.

* `Event.runs` — the turns of a session in a list of events;
* `World.step_unlocked` — a session that waits for no lock can always take its turn;
* `World.attempt_follow` — what its own turns keep, and how many of them it has taken;
* `World.attempt_begun` — the same from the moment it begins.
-/

namespace Transactions

variable {σ κ ω ι ε α Call : Type}

/-- A turn of the `i`-th session. -/
def Event.runs (i : ℕ) : Event ι Call → Bool
  | .run j _ => j == i
  | _ => false

/-- A program that has not ended takes its turn. -/
theorem Program.turn_cases (D : Database σ ω ε) (x : ι) (s : σ) (p : Program σ κ ω ι ε α)
    (f : Standing σ κ ω) : (∃ r, p = .done r) ∨ ∃ r, p.turn D x s f = some r := by
  rcases p with r | next | next | ⟨key, mode, next⟩ | ⟨row, next⟩ | ⟨row, next⟩ | next | next
  · exact .inl ⟨r, rfl⟩
  · exact .inr ⟨_, rfl⟩
  · exact .inr ⟨_, rfl⟩
  · exact .inr ⟨_, rfl⟩
  · exact .inr ⟨_, rfl⟩
  · exact .inr ⟨_, rfl⟩
  · cases hd : D.deferred (f.view D s) f.pending with
    | ok u => exact .inr ⟨(f.view D s, next (.ok ()), f.ended), by simp only [Program.turn, hd]⟩
    | error e => exact .inr ⟨(s, next (.error e), f.ended), by simp only [Program.turn, hd]⟩
  · exact .inr ⟨_, rfl⟩

section
variable [DecidableEq κ] {D : Database σ ω ε} {program : Call → Program σ κ ω ι ε α}
variable {w w' : World σ κ ω ι ε α Call} {i : ℕ} {t : Session σ κ ω ι ε α Call}

/-- A session that waits for no lock can take its turn, whatever the others hold. -/
theorem World.step_unlocked {x : ι} (ht : w.sessions[i]? = some t)
    (hwants : t.program.wants = none) {r : σ × Program σ κ ω ι ε α × Standing σ κ ω}
    (hr : t.program.turn D x w.db t.standing = some r) :
    w.step D program (.run i x) =
      some { db := r.1, sessions := w.sessions.set i ⟨t.call, r.2.1, r.2.2⟩ } := by
  have hgrants : w.grants i t.program = true := by
    unfold World.grants
    rw [hwants]
    rfl
  unfold World.step
  simp only [ht, Option.bind_some, hgrants, if_true, hr, Option.map_some]

/-- A turn of another session leaves the session as it is. -/
theorem World.step_other {e : Event ι Call} (ht : w.sessions[i]? = some t)
    (he : e.runs i = false) (hkill : e ≠ .kill i) (hs : w.step D program e = some w') :
    w'.sessions[i]? = some t := by
  have hlt : i < w.sessions.length := (List.getElem?_eq_some_iff.1 ht).1
  cases e with
  | start c =>
    cases hs
    exact (List.getElem?_append_left hlt).trans ht
  | run j x =>
    simp only [World.step, Option.bind_eq_some_iff] at hs
    obtain ⟨u, -, hs⟩ := hs
    split at hs
    case isFalse => cases hs
    case isTrue =>
    obtain ⟨r, -, rfl⟩ := Option.map_eq_some_iff.1 hs
    have hne : j ≠ i := by simpa [Event.runs] using he
    exact (List.getElem?_set_ne hne).trans ht
  | kill j =>
    simp only [World.step, Option.map_eq_some_iff] at hs
    obtain ⟨u, -, rfl⟩ := hs
    have hne : j ≠ i := fun heq => hkill (heq ▸ rfl)
    exact (List.getElem?_set_ne hne).trans ht

variable (program) in
/-- What the turns of a session that never waits keep, in whatever state they are taken, when `n`
is the number of turns that it was given. -/
theorem World.attempt_follow {P : ℕ → Program σ κ ω ι ε α → Standing σ κ ω → Prop}
    (hlost : ∀ n (f : Standing σ κ ω), P n (.done (.error D.lost)) f.ended)
    (hended : ∀ n r f, P n (.done r) f → P (n + 1) (.done r) f)
    (hwants : ∀ n p f, P n p f → p.wants = none) (events : List (Event ι Call)) :
    ∀ {w : World σ κ ω ι ε α Call} {t : Session σ κ ω ι ε α Call} {n : ℕ},
      (∀ w₁ x n p f r, World.Run D program (fun _ _ => True) w w₁ → P n p f →
        p.turn D x w₁.db f = some r → P (n + 1) r.2.1 r.2.2) →
      w.sessions[i]? = some t → P n t.program t.standing →
      ∃ t', (w.attempt D program events).sessions[i]? = some t' ∧ t'.call = t.call ∧
        P (n + events.countP (Event.runs i)) t'.program t'.standing := by
  induction events with
  | nil => exact fun {w t n} _ ht hP => ⟨t, ht, rfl, hP⟩
  | cons e rest ih =>
    intro w t n hown ht hP
    have hlater : ∀ {w'}, w.step D program e = some w' → ∀ w₁ x n p f r,
        World.Run D program (fun _ _ => True) w' w₁ → P n p f →
        p.turn D x w₁.db f = some r → P (n + 1) r.2.1 r.2.2 := by
      intro w' hs w₁ x n p f r hrun
      exact hown w₁ x n p f r ((World.Run.tail (.refl w) trivial hs).trans hrun)
    have hlt : i < w.sessions.length := (List.getElem?_eq_some_iff.1 ht).1
    unfold World.attempt
    by_cases hruns : e.runs i = true
    · rw [List.countP_cons_of_pos hruns, Nat.add_comm _ 1, ← Nat.add_assoc]
      obtain ⟨x, rfl⟩ : ∃ x, e = .run i x := by
        rcases e with c | ⟨j, x⟩ | j
        · cases hruns
        · exact ⟨x, by rw [beq_iff_eq.1 hruns]⟩
        · cases hruns
      rcases Program.turn_cases D x w.db t.program t.standing with ⟨r, hdone⟩ | ⟨r, hturn⟩
      · -- it has ended, and this turn is not taken
        have hstep : w.step D program (.run i x) = none := by
          simp only [World.step, ht, Option.bind_some, hdone]
          split <;> rfl
        rw [hstep, Option.getD_none]
        rw [hdone] at hP
        exact ih hown ht (hdone ▸ hended n r _ hP)
      · have hstep : w.step D program (.run i x) = some _ :=
          World.step_unlocked ht (hwants n _ _ hP) hturn
        have hnext := hlater hstep
        rw [hstep, Option.getD_some]
        exact ih (t := ⟨t.call, r.2.1, r.2.2⟩) hnext (List.getElem?_set_self hlt)
          (hown w x n _ _ r (.refl w) hP hturn)
    · rw [List.countP_cons_of_neg hruns]
      by_cases hkill : e = .kill i
      · -- its connection is lost
        subst hkill
        have hstep : w.step D program (.kill i) = some { w with
            sessions := w.sessions.set i ⟨t.call, .done (.error D.lost), t.standing.ended⟩ } := by
          simp only [World.step, ht, Option.map_some]
        have hnext := hlater hstep
        rw [hstep, Option.getD_some]
        exact ih (t := ⟨t.call, .done (.error D.lost), t.standing.ended⟩) hnext
          (List.getElem?_set_self hlt) (hlost n _)
      · rcases hstep : w.step D program e with _ | w'
        · exact ih hown ht hP
        · exact ih (hlater hstep) (World.step_other ht (Bool.eq_false_iff.2 hruns) hkill hstep) hP

variable (program) in
/-- What the turns of a session that never waits keep from the moment it begins. -/
theorem World.attempt_begun {P : ℕ → Program σ κ ω ι ε α → Standing σ κ ω → Prop} {c : Call}
    (hlost : ∀ n (f : Standing σ κ ω), P n (.done (.error D.lost)) f.ended)
    (hended : ∀ n r f, P n (.done r) f → P (n + 1) (.done r) f)
    (hwants : ∀ n p f, P n p f → p.wants = none)
    (hown : ∀ w₁ x n p f r, World.Run D program (fun _ _ => True) w w₁ → P n p f →
      p.turn D x w₁.db f = some r → P (n + 1) r.2.1 r.2.2)
    (hbegun : P 0 (program c) {}) (events : List (Event ι Call)) :
    ∃ t, (w.attempt D program (.start c :: events)).sessions[w.sessions.length]? = some t ∧
      t.call = c ∧ P (events.countP (Event.runs w.sessions.length)) t.program t.standing := by
  have hstart : World.Run D program (fun _ _ => True) w
      { w with sessions := w.sessions ++ [⟨c, program c, {}⟩] } :=
    .tail (.refl w) trivial (e := .start c) rfl
  obtain ⟨t, ht, hcall, hP⟩ := World.attempt_follow program hlost hended hwants events
    (fun w₁ x n p f r hrun => hown w₁ x n p f r (hstart.trans hrun))
    List.getElem?_concat_length hbegun
  rw [Nat.zero_add] at hP
  exact ⟨t, ht, hcall, hP⟩

end

end Transactions
