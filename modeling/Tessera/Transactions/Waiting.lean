import Tessera.Transactions.Soundness

/-!
# Who waits for whom

* `World.WaitsFor` — a session waits for a lock that another one holds;
* `cycle_special` — a cycle of a relation whose edges rise, but for special ones, has a special one;
* `wp_guard` — a session that waits does so under its guard.
-/

namespace Transactions

variable {σ κ ω ι ε α Call : Type}

/-- Among sessions of some calls, the `i`-th waits for a lock of some kind, and the `j`-th holds one
that is in its way. -/
def World.WaitsFor (among : Call → Bool) (kind : κ → Bool) (w : World σ κ ω ι ε α Call) (i j : ℕ) :
    Prop :=
  i ≠ j ∧ ∃ t ∈ w.sessions[i]?, ∃ u ∈ w.sessions[j]?, among t.call = true ∧ among u.call = true ∧
    ∃ h ∈ t.program.wants, kind h.1 = true ∧
      ∃ k ∈ u.standing.held, k.1 = h.1 ∧ k.2.conflicts h.2 = true

instance [DecidableEq κ] (among : Call → Bool) (kind : κ → Bool) (w : World σ κ ω ι ε α Call)
    (i j : ℕ) : Decidable (w.WaitsFor among kind i j) :=
  inferInstanceAs (Decidable (_ ∧ _))

section
variable {β : Type} {r special : β → β → Prop} {level : β → ℕ}

/-- Along a path there is a special edge, or the level has risen. -/
theorem path_special (hrise : ∀ a b, r a b → ¬special a b → level a < level b) {a b : β}
    (h : Relation.TransGen r a b) :
    (∃ c d, Relation.ReflTransGen r a c ∧ r c d ∧ special c d ∧ Relation.ReflTransGen r d b) ∨
      level a < level b := by
  induction h with
  | single hab =>
    rename_i b
    by_cases hspecial : special a b
    · exact .inl ⟨a, _, .refl, hab, hspecial, .refl⟩
    · exact .inr (hrise _ _ hab hspecial)
  | tail hpath hlast ih =>
    rename_i b c
    rcases ih with ⟨d, e, had, hde, hspecial, heb⟩ | hlevel
    · exact .inl ⟨d, e, had, hde, hspecial, heb.tail hlast⟩
    · by_cases hspecial : special b c
      · exact .inl ⟨b, c, hpath.to_reflTransGen, hlast, hspecial, .refl⟩
      · exact .inr (hlevel.trans (hrise _ _ hlast hspecial))

/-- A cycle cannot only rise. -/
theorem cycle_special (hrise : ∀ a b, r a b → ¬special a b → level a < level b) {a : β}
    (h : Relation.TransGen r a a) :
    ∃ b c, Relation.ReflTransGen r a b ∧ r b c ∧ special b c ∧ Relation.ReflTransGen r c a :=
  (path_special hrise h).resolve_right (lt_irrefl _)

end

section
variable {D : Database σ ω ε} {R : Discipline σ κ ω} {T : Terms σ κ ω}

/-- A session that waits for a lock does so under its guard. -/
theorem wp_guard {Q : Post σ κ ω ε α} {p : Program σ κ ω ι ε α} {f : Standing σ κ ω} {s : σ}
    {h : κ × LockMode} (hsafe : wp D R T p f s Q) (hrely : Rely R f.held s s)
    (hwants : p.wants = some h) : T.guard f h s := by
  cases p with
  | lock key mode next =>
    cases hwants
    exact (hsafe s hrely).1
  | _ => cases hwants

end

end Transactions
