import Mathlib.Tactic

/-!
# Values reached by repeated hashing

A one-way function `f` applied over and over to a start value.  What is published about the
orbit discloses everything further along, and nothing before it.

* `Discloses` — one value is reached from another by hashing forward;
* `Chains` — start values whose orbits, as far as they are used, are not come upon otherwise;
* `Chains.discloses_iff` — what one position of such an orbit discloses;
* `exists_merge` — two orbits that meet run into a collision first.
-/

namespace HashChain

variable {α ι : Type}

/-- Hashing forward from `a`, zero or more times, arrives at `b`. -/
def Discloses (f : α → α) (a b : α) : Prop := ∃ k, f^[k] a = b

/-- A value discloses itself, with no hashing at all. -/
theorem Discloses.refl (f : α → α) (a : α) : Discloses f a a := ⟨0, rfl⟩

/-- What is disclosed by a value that is disclosed is disclosed. -/
theorem Discloses.trans {f : α → α} {a b c : α} (h : Discloses f a b)
    (h' : Discloses f b c) : Discloses f a c := by
  obtain ⟨k, rfl⟩ := h
  obtain ⟨l, rfl⟩ := h'
  exact ⟨l + k, Function.iterate_add_apply f l k a⟩

/-- Start values whose orbits are used up to a bound each: hashing forward from one of them, as far
as one likes, arrives at a used position of any orbit only in its own place.  A hash with finitely
many values may have such orbits, as long as none of the used positions lies on a cycle. -/
def Chains (f : α → α) (start : ι → α) (bound : ι → ℕ) : Prop :=
  ∀ c d m n, n ≤ bound d → f^[m] (start c) = f^[n] (start d) → c = d ∧ m = n

/-- A used position is disclosed by exactly the positions of its own orbit that are not after it. -/
theorem Chains.discloses_iff {f : α → α} {start : ι → α} {bound : ι → ℕ} (h : Chains f start bound)
    {c d : ι} {m n : ℕ} (hn : n ≤ bound d) :
    Discloses f (f^[m] (start c)) (f^[n] (start d)) ↔ c = d ∧ m ≤ n := by
  constructor
  · rintro ⟨k, hk⟩
    rw [← Function.iterate_add_apply] at hk
    obtain ⟨rfl, hkn⟩ := h c d (k + m) n hn hk
    exact ⟨rfl, by omega⟩
  · rintro ⟨rfl, hmn⟩
    refine ⟨n - m, ?_⟩
    rw [← Function.iterate_add_apply]
    congr
    omega

/-- Two start values whose orbits have met differ up to some step, and collide there. -/
theorem exists_merge {f : α → α} {a b : α} (hne : a ≠ b) {n : ℕ} (h : f^[n] a = f^[n] b) :
    ∃ k < n, f^[k] a ≠ f^[k] b ∧ f (f^[k] a) = f (f^[k] b) := by
  induction n with
  | zero => exact absurd h hne
  | succ n ih =>
    by_cases hmet : f^[n] a = f^[n] b
    · obtain ⟨k, hk, hcollision⟩ := ih hmet
      exact ⟨k, Nat.lt_succ_of_lt hk, hcollision⟩
    · refine ⟨n, Nat.lt_succ_self n, hmet, ?_⟩
      rw [← Function.iterate_succ_apply' f n a, ← Function.iterate_succ_apply' f n b]
      exact h

end HashChain
