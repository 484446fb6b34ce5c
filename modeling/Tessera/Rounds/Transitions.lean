import Tessera.Database.Parts
import Tessera.Rounds.Lifecycle

/-!
# What happens to the rows of `rounds`

The abstract layer over the table: a transaction leaves it alone, opens one round or moves one
round on by one transition.  What every round then satisfies, and how it may change along a run,
follows from that alone.

* `Transition` — the transitions of a row, with the columns that each sets;
* `RoundChange` — what one transaction does to the table;
* `Round.Sound`, `Lifecycle` — what is true of a round, and of all rounds together;
* `Round.Becomes`, `RoundsMove` — how a round, and the table, may change along a run;
* `RoundsStep` — how the table may change in one step;
* `Lifecycle.after`, `RoundChange.step` — every change keeps the lifecycles, and is such a step.

Source: `migrations/` for the constraints, `round-engine.service.ts` for the transitions.
-/

namespace Tessera

open Relational Transactions

/-! ## Constraints -/

/-- A list of constraints without a violation. -/
theorem firstViolated_none {checks : List (String × Bool)} (h : firstViolated checks = none) :
    ∀ c ∈ checks, c.2 = true := by
  unfold firstViolated at h
  rw [Option.map_eq_none_iff, List.find?_eq_none] at h
  intro c hc
  simpa using h c hc

/-- What the CHECK constraints of `rounds` say about a row that was started, resolved or
voided. -/
structure Round.Checked (r : Round) : Prop where
  started : r.status = .RUNNING ∨ r.status = .RESOLVED ∨ r.status = .SETTLED →
    r.startedAt.isSome = true
  outcome : match r.game with
    | .CRASH => r.crashPointBp.isSome = true
    | .ROULETTE => r.winningPocket.isSome = true
  crashPoint : ∀ c, r.crashPointBp = some c → basisPointsOne ≤ c
  pocket : ∀ p, r.winningPocket = some p → 0 ≤ p ∧ p ≤ 36
  voided : r.status = .VOIDED → r.resolvedAt = none

/-- A round that passes its constraints has what its status asks for. -/
theorem Round.checked {r : Round} (h : r.violated = none) : r.Checked := by
  have hall := firstViolated_none h
  simp only [List.forall_mem_cons] at hall
  obtain ⟨-, hcrash, hflying, houtcome, -, -, -, hvoided, hpocket, -⟩ := hall
  refine ⟨fun hstatus => ?_, ?_, fun c hc => ?_, fun p hp => ?_, fun hstatus => ?_⟩
  · rcases hstatus with hstatus | hstatus | hstatus <;> simpa [hstatus] using hflying
  · cases hgame : r.game with
    | CRASH =>
      simp only [hgame, Bool.and_eq_true] at houtcome
      exact houtcome.1
    | ROULETTE =>
      simp only [hgame, Bool.and_eq_true] at houtcome
      exact houtcome.1
  · simpa [hc, basisPointsOne] using hcrash
  · simpa [hp] using hpocket
  · simpa [hstatus] using hvoided

/-! ## One row -/

/-- The transitions of a round, with the columns that each of them sets. -/
inductive Transition (r : Round) : RoundUpdate → Prop
  | lock (h : r.status = .OPEN) : Transition r { status := .LOCKED }
  | start (h : r.status = .LOCKED) (now : Time) :
      Transition r { status := .RUNNING, startedAt := some now }
  | resolve (h : r.status = .RUNNING) (now : Time) :
      Transition r { status := .RESOLVED, resolvedAt := some now, seedRevealed := some r.seed }
  | settle (h : r.status = .RESOLVED) (now : Time) :
      Transition r { status := .SETTLED, settledAt := some now }
  | void (h : r.status.isLive = true) (now : Time) :
      Transition r { status := .VOIDED, settledAt := some now, seedRevealed := some r.seed }

/-- What is true of each round. -/
structure Round.Sound (r : Round) : Prop where
  checks : r.violated = none
  waiting : r.status = .OPEN ∨ r.status = .LOCKED → r.startedAt = none
  resolved : r.status = .RESOLVED ∨ r.status = .SETTLED → r.resolvedAt.isSome = true
  revealed : r.seedRevealed = if r.status.revealed = true then some r.seed else none

/-- How a round may have changed after any number of transitions. -/
structure Round.Becomes (r r' : Round) : Prop where
  core : r'.core = r.core
  status : r.status.Leads r'.status
  started : ∀ now, r.startedAt = some now → r'.startedAt = some now
  final : r.status = .SETTLED ∨ r.status = .VOIDED → r' = r

section
variable {r r' r'' : Round} {u : RoundUpdate}

/-- Every live round may be voided. -/
theorem RoundStatus.Next.of_live {status : RoundStatus} (h : status.isLive = true) :
    status.Next .VOIDED := by
  cases status with
  | OPEN => exact .voidOpen
  | LOCKED => exact .voidLocked
  | RUNNING => exact .voidRunning
  | _ => cases h

/-- A transition is one of the lifecycle's. -/
theorem Transition.next (h : Transition r u) : r.status.Next (u.row r).status := by
  cases h with
  | lock h => exact h ▸ .lock
  | start h now => exact h ▸ .start
  | resolve h now => exact h ▸ .resolve
  | settle h now => exact h ▸ .settle
  | void h now => exact .of_live h

/-- A transition that the constraints let pass leaves a sound round. -/
theorem Transition.sound (h : Transition r u) (hr : r.Sound) (hu : (u.row r).violated = none) :
    (u.row r).Sound := by
  have hrevealed := hr.revealed
  cases h with
  | lock h =>
    refine ⟨hu, fun _ => hr.waiting (.inl h), by simp [RoundUpdate.row], ?_⟩
    simpa [RoundUpdate.row, h, RoundStatus.revealed, RoundStatus.concluded] using hrevealed
  | start h now =>
    refine ⟨hu, by simp [RoundUpdate.row], by simp [RoundUpdate.row], ?_⟩
    simpa [RoundUpdate.row, h, RoundStatus.revealed, RoundStatus.concluded] using hrevealed
  | resolve h now =>
    exact ⟨hu, by simp [RoundUpdate.row], fun _ => rfl, rfl⟩
  | settle h now =>
    refine ⟨hu, by simp [RoundUpdate.row], fun _ => hr.resolved (.inl h), ?_⟩
    simpa [RoundUpdate.row, h, RoundStatus.revealed, RoundStatus.concluded] using hrevealed
  | void h now =>
    exact ⟨hu, by simp [RoundUpdate.row], by simp [RoundUpdate.row], rfl⟩

/-- A round may stay as it is. -/
theorem Round.Becomes.refl (r : Round) : r.Becomes r :=
  ⟨rfl, .refl _, fun _ h => h, fun _ => rfl⟩

/-- A round may change twice. -/
theorem Round.Becomes.trans (h : r.Becomes r') (h' : r'.Becomes r'') : r.Becomes r'' where
  core := h'.core.trans h.core
  status := h.status.trans h'.status
  started now hr := h'.started now (h.started now hr)
  final hover := by
    have hr' := h.final hover
    subst hr'
    exact h'.final hover

/-- A transition keeps the columns that are fixed, and reveals the seed at the end only. -/
theorem Transition.becomes (h : Transition r u) (hr : r.Sound) : r.Becomes (u.row r) where
  core := rfl
  status := h.next.leads
  started now hstarted := by
    cases h with
    | start h _ =>
      rw [hr.waiting (.inr h)] at hstarted
      cases hstarted
    | _ => exact hstarted
  final hover := by
    have hnext := h.next
    rcases hover with hover | hover <;>
    · rw [hover] at hnext
      cases hnext

/-- A round that is not live does not come back to life. -/
theorem RoundStatus.Leads.not_live {a b : RoundStatus} (h : a.Leads b) (ha : a.isLive = false) :
    b.isLive = false := by
  induction h with
  | refl => exact ha
  | tail _ hnext ih => cases hnext <;> first
    | rfl
    | cases ih

end

/-! ## The table -/

/-- What one transaction does to the table. -/
inductive RoundChange (s : Db) : List Write → Prop
  | none : RoundChange s []
  | opened {r : Round} (id : s.round r.id = Option.none) (status : r.status = .OPEN)
      (sound : r.Sound)
      (alone : ∀ q ∈ s.rounds, q.game = r.game → q.status.isLive = false) :
      RoundChange s [.insertRound r]
  | moved {id : Uuid} {r : Round} {u : RoundUpdate} (row : s.round id = some r)
      (transition : Transition r u) (checks : (u.row r).violated = Option.none) :
      RoundChange s [.updateRound id u]

/-- What is true of all rounds together. -/
structure Lifecycle (s : Db) : Prop where
  ids : (s.rounds.map Round.id).Nodup
  sound : ∀ r ∈ s.rounds, r.Sound
  single : ∀ r ∈ s.rounds, ∀ r' ∈ s.rounds, r.game = r'.game →
    r.status.isLive = true → r'.status.isLive = true → r = r'

/-- How the table may have changed along a run. -/
def RoundsMove (s s' : Db) : Prop :=
  ∀ id r, s.round id = some r → ∃ r', s'.round id = some r' ∧ r.Becomes r'

section
variable {s s' s'' : Db} {rows : List Write}

/-- The rounds may stay as they are. -/
theorem RoundsMove.refl (s : Db) : RoundsMove s s := fun _ _ h => ⟨_, h, .refl _⟩

/-- The rounds may change twice. -/
theorem RoundsMove.trans (h : RoundsMove s s') (h' : RoundsMove s' s'') : RoundsMove s s'' := by
  intro id r hr
  obtain ⟨r', hr', hb⟩ := h id r hr
  obtain ⟨r'', hr'', hb'⟩ := h' id r' hr'
  exact ⟨r'', hr'', hb.trans hb'⟩

/-- A state with the same rounds has moved none. -/
theorem RoundsMove.of_eq (h : s'.rounds = s.rounds) : RoundsMove s s' := by
  intro id r hr
  refine ⟨r, ?_, .refl r⟩
  unfold Db.round at hr ⊢
  rwa [h]

/-- The lifecycle depends on the rounds only. -/
theorem Lifecycle.of_eq (hs : Lifecycle s) (h : s'.rounds = s.rounds) : Lifecycle s' := by
  refine ⟨?_, ?_, ?_⟩
  · rw [h]
    exact hs.ids
  · rw [h]
    exact hs.sound
  · rw [h]
    exact hs.single

/-- A round is found by its id. -/
theorem Lifecycle.round_of_mem (hs : Lifecycle s) {r : Round} (hr : r ∈ s.rounds) :
    s.round r.id = some r :=
  lookup_of_mem hs.ids hr

/-- A new round, when no other of its game is live. -/
theorem Lifecycle.open (hs : Lifecycle s) {r : Round} (hid : s.round r.id = none)
    (hsound : r.Sound) (halone : ∀ q ∈ s.rounds, q.game = r.game → q.status.isLive = false) :
    Lifecycle (s.apply (.insertRound r)) ∧ RoundsMove s (s.apply (.insertRound r)) := by
  refine ⟨⟨nodup_insert hs.ids hid, ?_, ?_⟩, fun _ _ h => ⟨_, lookup_append_of_some h [r], .refl _⟩⟩
  · intro q hq
    rcases List.mem_append.1 hq with hq | hq
    · exact hs.sound q hq
    · exact List.mem_singleton.1 hq ▸ hsound
  · -- two live rounds of one game: the new one would not be alone
    intro q hq q' hq' hgame hlive hlive'
    rcases List.mem_append.1 hq with hq | hq <;> rcases List.mem_append.1 hq' with hq' | hq'
    · exact hs.single q hq q' hq' hgame hlive hlive'
    · rw [List.mem_singleton.1 hq'] at hgame
      rw [halone q hq hgame] at hlive
      cases hlive
    · rw [List.mem_singleton.1 hq] at hgame
      rw [halone q' hq' hgame.symm] at hlive'
      cases hlive'
    · rw [List.mem_singleton.1 hq, List.mem_singleton.1 hq']

/-- A transition of one round. -/
theorem Lifecycle.transition (hs : Lifecycle s) {id : Uuid} {r : Round} {u : RoundUpdate}
    (hr : s.round id = some r) (ht : Transition r u) (hu : (u.row r).violated = none) :
    Lifecycle (s.apply (.updateRound id u)) ∧ RoundsMove s (s.apply (.updateRound id u)) := by
  have hmem : r ∈ s.rounds := lookup_mem hr
  have hid : r.id = id := lookup_key hr
  -- every row is an old one, moved on if it is the one with this id
  have hold : ∀ q ∈ (s.apply (.updateRound id u)).rounds,
      ∃ q₀ ∈ s.rounds, q₀.game = q.game ∧ (q.status.isLive = true → q₀.status.isLive = true) ∧
        ((q₀ = r ∧ q = u.row r) ∨ (q₀.id ≠ id ∧ q = q₀)) := by
    intro q hq
    obtain ⟨q₀, hq₀, ⟨hkey, rfl⟩ | ⟨hkey, rfl⟩⟩ := mem_modify hq
    · obtain rfl : q₀ = r := eq_of_key hs.ids hq₀ hmem (hkey.trans hid.symm)
      refine ⟨q₀, hq₀, rfl, fun hlive => ?_, .inl ⟨rfl, rfl⟩⟩
      by_contra hdead
      have hnot := ht.next.leads.not_live (Bool.eq_false_iff.2 hdead)
      rw [hlive] at hnot
      cases hnot
    · exact ⟨q, hq₀, rfl, fun h => h, .inr ⟨hkey, rfl⟩⟩
  refine ⟨⟨?_, ?_, ?_⟩, fun id' q hq => ?_⟩
  · change ((modify Round.id s.rounds id u.row).map Round.id).Nodup
    rw [map_key_modify (RoundUpdate.row_id u)]
    exact hs.ids
  · intro q hq
    obtain ⟨q₀, hq₀, -, -, ⟨-, rfl⟩ | ⟨-, rfl⟩⟩ := hold q hq
    · exact ht.sound (hs.sound r hmem) hu
    · exact hs.sound q hq₀
  · intro q hq q' hq' hgame hlive hlive'
    obtain ⟨q₀, hq₀, hg, hl, hcase⟩ := hold q hq
    obtain ⟨q₀', hq₀', hg', hl', hcase'⟩ := hold q' hq'
    have hsame : q₀ = q₀' := hs.single q₀ hq₀ q₀' hq₀' (hg.trans (hgame.trans hg'.symm))
      (hl hlive) (hl' hlive')
    subst hsame
    rcases hcase with ⟨rfl, rfl⟩ | ⟨hne, rfl⟩ <;> rcases hcase' with ⟨heq, rfl⟩ | ⟨hne', heq⟩
    · rfl
    · exact absurd hid hne'
    · exact absurd (heq ▸ hid) hne
    · exact heq.symm
  · by_cases hid' : id' = id
    · subst hid'
      obtain rfl : r = q := Option.some.inj (hr.symm.trans hq)
      exact ⟨u.row r, lookup_modify_self (RoundUpdate.row_id u) hr,
        ht.becomes (hs.sound r hmem)⟩
    · exact ⟨q, (lookup_modify_ne (RoundUpdate.row_id u) hid').trans hq, .refl q⟩

/-- Every change of the table keeps the lifecycles. -/
theorem Lifecycle.after (hs : Lifecycle s) (h : RoundChange s (rowsOn .rounds rows)) :
    Lifecycle (database.applyAll s rows) ∧ RoundsMove s (database.applyAll s rows) := by
  have hrounds := applyAll_rounds s rows
  have hchange : Lifecycle (database.applyAll s (rowsOn .rounds rows)) ∧
      RoundsMove s (database.applyAll s (rowsOn .rounds rows)) := by
    generalize rowsOn .rounds rows = changed at h
    cases h with
    | none => exact ⟨hs, .refl s⟩
    | opened hid hstatus hsound halone => exact hs.open hid hsound halone
    | moved hr ht hu => exact hs.transition hr ht hu
  exact ⟨hchange.1.of_eq hrounds, hchange.2.trans (.of_eq hrounds)⟩

/-- How the table may have changed after one step: each row is as it was, or has gone through
one transition, or is a new open round. -/
def RoundsStep (s s' : Db) : Prop :=
  ∀ id r', s'.round id = some r' →
    (s.round id = none ∧ r'.status = .OPEN) ∨
      ∃ r, s.round id = some r ∧ (r' = r ∨ (r.status.Next r'.status ∧ r'.core = r.core))

/-- A state with the same rounds is a step away from it at most. -/
theorem RoundsStep.of_eq (h : s'.rounds = s.rounds) : RoundsStep s s' := by
  intro id r' hr'
  refine .inr ⟨r', ?_, .inl rfl⟩
  unfold Db.round at hr' ⊢
  rwa [← h]

/-- Writes that open a round or make one transition are a step of the rounds. -/
theorem RoundChange.step (h : RoundChange s (rowsOn .rounds rows)) :
    RoundsStep s (database.applyAll s rows) := by
  have hrounds := applyAll_rounds s rows
  intro id r' hr'
  unfold Db.round at hr'
  rw [hrounds] at hr'
  generalize rowsOn .rounds rows = changed at h hr'
  cases h with
  | none => exact .inr ⟨r', hr', .inl rfl⟩
  | @opened r hid hstatus _ _ =>
    change lookup Round.id (s.rounds ++ [r]) id = some r' at hr'
    cases hold : s.round id with
    | some q =>
      have hfound := lookup_append_of_some hold [r]
      rw [hr'] at hfound
      exact .inr ⟨q, rfl, .inl (Option.some.inj hfound)⟩
    | none =>
      by_cases hne : r.id = id
      · subst hne
        rw [lookup_append_new hid] at hr'
        exact .inl ⟨rfl, Option.some.inj hr' ▸ hstatus⟩
      · rw [lookup_append_ne hne] at hr'
        unfold Db.round at hold
        rw [hold] at hr'
        cases hr'
  | @moved id' r u hrow ht _ =>
    change lookup Round.id (modify Round.id s.rounds id' u.row) id = some r' at hr'
    by_cases hid : id = id'
    · subst hid
      rw [lookup_modify_self (RoundUpdate.row_id u) hrow] at hr'
      cases hr'
      exact .inr ⟨r, hrow, .inr ⟨ht.next, rfl⟩⟩
    · rw [lookup_modify_ne (RoundUpdate.row_id u) hid] at hr'
      exact .inr ⟨r', hr', .inl rfl⟩

end

end Tessera
