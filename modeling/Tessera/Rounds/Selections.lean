import Tessera.Rounds.Transitions

/-!
# The selection a bet is stored with

A roulette bet keeps its selection as two texts, and the odds that were offered for it.  What is
read back at settlement is the selection that was checked when the bet was placed.

* `Bet.Backs` — what is stored with a roulette bet;
* `priceSelection_backs` — a bet that was priced and inserted backs something;
* `Bet.Backs.winsAt` — settlement never fails on it: it wins at its odds, or loses.

Source: `rounds.service.ts` `priceSelection`, `round-engine.service.ts` `settleRouletteBet`.
-/

namespace Tessera

open Relational

/-- What is stored with a roulette bet: a bet type, its odds, and a selection that is still
valid when it is read back. -/
structure Bet.Backs (b : Bet) (type : RouletteBetType) : Prop where
  text : b.selectionType = some type.text
  odds : b.oddsBp = some (rouletteOddsBp type)
  valid : assertValidSelection b.selection = .ok ()

/-! ## Bet types and their texts -/

/-- A text that is a bet type is the text of this type. -/
theorem RouletteBetType.ofText_some {text : String} {type : RouletteBetType}
    (h : RouletteBetType.ofText text = some type) : type.text = text := by
  simpa using List.find?_some h

/-- The text of a bet type is read back. -/
theorem RouletteBetType.ofText_text (type : RouletteBetType) :
    RouletteBetType.ofText type.text = some type := by
  cases type <;> decide

/-- No bet type has the empty text. -/
theorem RouletteBetType.text_isEmpty (type : RouletteBetType) : type.text.isEmpty = false := by
  cases type <;> decide

/-- The odds lie between 1 and 36 times the stake. -/
theorem rouletteOddsBp_ge (type : RouletteBetType) :
    basisPointsOne ≤ rouletteOddsBp type ∧ rouletteOddsBp type ≤ 36 * basisPointsOne := by
  cases type <;> decide

/-! ## Placing -/

/-- The value that is stored and read back, for a selection that was valid. -/
def storedValue (value : Option Js.Number) : Option Js.Number :=
  ((value.bind Js.Number.asInteger).map Js.textOfInteger).map Js.numberOfText

/-- A value that is stored is the same integer. -/
theorem storedValue_asInteger (value : Option Js.Number) :
    (storedValue value).bind Js.Number.asInteger = value.bind Js.Number.asInteger := by
  unfold storedValue
  cases value.bind Js.Number.asInteger with
  | none => rfl
  | some n =>
    simp only [Option.map_some, Option.bind_some, Js.numberOfText_textOfInteger]
    rfl

/-- A valid selection is valid when it is read back. -/
theorem assertValidSelection_stored {selection : RouletteSelection}
    (h : assertValidSelection selection = .ok ()) :
    assertValidSelection ⟨selection.type, storedValue selection.value⟩ = .ok () := by
  unfold assertValidSelection at h ⊢
  simp only [storedValue_asInteger]
  simp only at h
  split at h
  case isTrue => cases h
  case isFalse hknown =>
    rw [if_neg hknown]
    split at h
    case isTrue hplain =>
      rw [if_pos hplain]
      cases hvalue : selection.value with
      | none => rfl
      | some value =>
        rw [hvalue] at h
        cases h
    case isFalse hplain =>
      rw [if_neg hplain]
      exact h

/-- What is stored with a bet on a round: nothing on a crash round. -/
def Bet.Priced (b : Bet) (game : GameKind) : Prop :=
  match game with
  | .CRASH => b.selectionType = none ∧ b.oddsBp = none
  | .ROULETTE => ∃ type, b.Backs type

/-- The columns that an `UPDATE` sets are others. -/
theorem Bet.Priced.update {b : Bet} {game : GameKind} (h : b.Priced game) (u : BetUpdate) :
    (u.row b).Priced game := by
  cases game with
  | CRASH => exact h
  | ROULETTE =>
    obtain ⟨type, hbacks⟩ := h
    exact ⟨type, hbacks.text, hbacks.odds, hbacks.valid⟩

/-- A type is stored exactly when odds are. -/
theorem Bet.paired {b : Bet} (h : b.violated = none) :
    b.selectionType.isSome = b.oddsBp.isSome := by
  have hall := firstViolated_none h
  simp only [List.forall_mem_cons] at hall
  obtain ⟨-, -, -, -, -, hpaired, -⟩ := hall
  simpa using hpaired

/-- A bet that was priced and let in by the constraints is stored with its selection and its
odds. -/
theorem priceSelection_priced {game : GameKind} {selection : Option RouletteSelection}
    {priced : PricedSelection} (h : priceSelection game selection = .ok priced) {b : Bet}
    (htype : b.selectionType = priced.selectionType)
    (hvalue : b.selectionValue = priced.selectionValue) (hodds : b.oddsBp = priced.oddsBp)
    (hpaired : b.selectionType.isSome = b.oddsBp.isSome) : b.Priced game := by
  unfold priceSelection at h
  cases game with
  | CRASH =>
    cases selection with
    | none =>
      cases h
      exact ⟨htype, hodds⟩
    | some selection => cases h
  | ROULETTE =>
    cases selection with
    | none => cases h
    | some selection =>
      simp only [oddsForSelection] at h
      cases hvalid : assertValidSelection selection with
      | error e =>
        rw [hvalid] at h
        cases h
      | ok _ =>
        rw [hvalid] at h
        cases h
        -- odds are stored with the type, so the type is one of the wheel's
        rw [htype, hodds] at hpaired
        have hsome : (RouletteBetType.ofText selection.type).isSome = true := by
          simpa using hpaired.symm
        obtain ⟨type, hknown⟩ := Option.isSome_iff_exists.1 hsome
        have htext := RouletteBetType.ofText_some hknown
        refine ⟨type, htype.trans (congrArg some htext.symm), ?_, ?_⟩
        · rw [hodds, hknown]
          rfl
        · have hselection : b.selection = ⟨selection.type, storedValue selection.value⟩ := by
            unfold Bet.selection
            rw [htype, hvalue]
            rfl
          rw [hselection]
          exact assertValidSelection_stored hvalid

/-! ## Settlement -/

section
variable {b : Bet} {type : RouletteBetType} {pocket : ℤ}

/-- What is read back from a bet wins or loses on every pocket of the wheel. -/
theorem Bet.Backs.selectionWins (h : b.Backs type) (hp : 0 ≤ pocket ∧ pocket ≤ 36) :
    ∃ wins, selectionWins b.selection pocket = .ok (some wins) := by
  have htype : b.selection.type = type.text := by
    unfold Bet.selection
    rw [h.text]
    rfl
  unfold Tessera.selectionWins
  rw [h.valid, htype, RouletteBetType.ofText_text]
  simp only [Option.map_some]
  rw [if_neg (by omega)]
  exact ⟨_, rfl⟩

/-- A bet wins at its odds exactly when its selection wins. -/
theorem Bet.Backs.winsAt (h : b.Backs type) {wins : Bool}
    (hwins : Tessera.selectionWins b.selection pocket = .ok (some wins)) :
    b.winsAt pocket = .ok (if wins then some (rouletteOddsBp type) else none) := by
  unfold Bet.winsAt
  rw [h.text, h.odds]
  simp only [RouletteBetType.text_isEmpty, Bool.false_eq_true, if_false]
  rw [hwins]
  cases wins <;> rfl

end

end Tessera
