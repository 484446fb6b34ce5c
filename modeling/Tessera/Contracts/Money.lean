import Tessera.Js.Number
import Tessera.Contracts.Types

/-!
# Money and multipliers

Amounts are whole minor units within the safe integer range, multipliers are basis points.

Source: `packages/contracts/src/money.ts`, `common/value-objects/money.ts`.
-/

namespace Tessera

/-- Source: `money.ts` `BASIS_POINTS_ONE`. -/
def basisPointsOne : ℤ := 10000

/-- Source: `money.ts` `MINOR_UNITS_PER_CREDIT`. -/
def minorUnitsPerCredit : ℕ := 100

/-- Source: `value-objects/money.ts` `Money`, a branded number that only the checked
constructors build. -/
structure Money where
  minor : ℤ
  safe : Js.isSafeInteger minor = true
  deriving DecidableEq

namespace Money

/-- An amount is its minor units. -/
@[ext] theorem ext {a b : Money} (h : a.minor = b.minor) : a = b := by
  cases a
  cases b
  congr

/-- Source: `Money.zero`. -/
def zero : Money := ⟨0, by decide⟩

/-- Source: `Money.fromMinor`, through `assertSafeInteger`. -/
def fromMinor (value : ℤ) : Except AppError Money :=
  if h : Js.isSafeInteger value = true then .ok ⟨value, h⟩
  else .error (.moneyError s!"amount exceeds the safe integer range: {value}")

/-- Source: `Money.sub`. -/
def sub (a b : Money) : Except AppError Money :=
  if h : Js.isSafeInteger (a.minor - b.minor) = true then .ok ⟨a.minor - b.minor, h⟩
  else .error (.moneyError s!"difference exceeds the safe integer range: {a.minor - b.minor}")

/-- Source: `Money.negate`. -/
def negate (a : Money) : Money := ⟨-a.minor, Js.isSafeInteger_neg a.safe⟩

/-- Source: `Money.isPositive`. -/
def isPositive (a : Money) : Bool := decide (0 < a.minor)

@[simp] theorem zero_minor : zero.minor = 0 := rfl

@[simp] theorem negate_minor (a : Money) : a.negate.minor = -a.minor := rfl

/-- `isPositive` compares the minor units with zero. -/
theorem isPositive_iff {a : Money} : a.isPositive = true ↔ 0 < a.minor := by
  unfold isPositive
  exact decide_eq_true_iff

/-- `fromMinor` keeps the value that it accepts. -/
theorem fromMinor_ok {value : ℤ} {m : Money} (h : fromMinor value = .ok m) :
    m.minor = value := by
  unfold fromMinor at h
  split at h
  · cases h
    rfl
  · cases h

/-- `sub` subtracts the minor units. -/
theorem sub_ok {a b m : Money} (h : sub a b = .ok m) : m.minor = a.minor - b.minor := by
  unfold sub at h
  split at h
  · cases h
    rfl
  · cases h

end Money

/-- Source: `money.ts` `applyBasisPoints`: the floor of `minorUnits * basisPoints / 10000`.  Its
arguments are integers by type. -/
def applyBasisPoints (minorUnits basisPoints : ℤ) : Except AppError Money :=
  if minorUnits < 0 then .error (.rangeError "amount may not be negative")
  else if basisPoints < 0 then .error (.rangeError "multiplier may not be negative")
  else if h : Js.isSafeInteger (minorUnits * basisPoints / basisPointsOne) = true then
    .ok ⟨minorUnits * basisPoints / basisPointsOne, h⟩
  else .error (.rangeError
    s!"payout {minorUnits * basisPoints / basisPointsOne} exceeds the safe integer range")

/-- Source: `Money.applyMultiplier`, which rethrows a range error as a `MoneyError`. -/
def Money.applyMultiplier (amount : Money) (multiplier : ℤ) : Except AppError Money :=
  match applyBasisPoints amount.minor multiplier with
  | .ok payout => .ok payout
  | .error e => .error (.moneyError e.message)

/-- Source: `BasisPoints.fromRaw`. -/
def basisPointsFromRaw (basisPoints : ℤ) : Except AppError ℤ :=
  if Js.isSafeInteger basisPoints then .ok basisPoints
  else .error (.moneyError s!"multiplier exceeds the safe integer range: {basisPoints}")

/-- `applyMultiplier` rounds down, and accepts neither a negative amount nor a negative factor. -/
theorem applyMultiplier_ok {amount payout : Money} {multiplier : ℤ}
    (h : amount.applyMultiplier multiplier = .ok payout) :
    payout.minor = amount.minor * multiplier / basisPointsOne ∧ 0 ≤ amount.minor ∧
      0 ≤ multiplier := by
  unfold Money.applyMultiplier applyBasisPoints at h
  split at h
  · rename_i p hp
    cases h
    split at hp
    · cases hp
    · split at hp
      · cases hp
      · split at hp
        · cases hp
          exact ⟨rfl, by omega, by omega⟩
        · cases hp
  · cases h

/-- A multiplier of at least 1.00x pays back at least the stake. -/
theorem le_applyMultiplier {amount payout : Money} {multiplier : ℤ}
    (hm : basisPointsOne ≤ multiplier) (h : amount.applyMultiplier multiplier = .ok payout) :
    amount.minor ≤ payout.minor := by
  obtain ⟨hp, hnonneg, -⟩ := applyMultiplier_ok h
  rw [hp, Int.le_ediv_iff_mul_le (by decide)]
  exact mul_le_mul_of_nonneg_left hm hnonneg

/-- Source: `money.ts` `formatMinorUnits`: `100050` is written `"1000.50"`. -/
def formatMinorUnits (minorUnits : ℤ) : String :=
  let whole := minorUnits.natAbs / minorUnitsPerCredit
  let fraction := toString (minorUnits.natAbs % minorUnitsPerCredit)
  let padded := if fraction.length < 2 then "0" ++ fraction else fraction
  (if minorUnits < 0 then "-" else "") ++ toString whole ++ "." ++ padded

/-- Source: `Money.format`. -/
def Money.format (a : Money) : String := formatMinorUnits a.minor

end Tessera
