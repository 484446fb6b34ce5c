import Tessera.Contracts.Fairness

/-!
# European roulette

Source: `packages/contracts/src/roulette.ts`.
-/

namespace Tessera

/-- Source: `POCKET_COUNT`. -/
def pocketCount : ℕ := 37

/-- Source: `RED_POCKETS`. -/
def redPockets : List ℤ :=
  [1, 3, 5, 7, 9, 12, 14, 16, 18, 19, 21, 23, 25, 27, 30, 32, 34, 36]

/-- Source: `PocketColour`. -/
inductive PocketColour
  | red
  | black
  | green
  deriving DecidableEq, Repr

/-- Source: `pocketColour`. -/
def pocketColour (pocket : ℤ) : PocketColour :=
  if pocket = 0 then .green
  else if redPockets.contains pocket then .red
  else .black

/-- Source: `RouletteBetType`. -/
inductive RouletteBetType
  | STRAIGHT
  | RED
  | BLACK
  | ODD
  | EVEN
  | LOW
  | HIGH
  | DOZEN
  | COLUMN
  deriving DecidableEq, Repr

/-- The text of a bet type. -/
def RouletteBetType.text : RouletteBetType → String
  | .STRAIGHT => "STRAIGHT"
  | .RED => "RED"
  | .BLACK => "BLACK"
  | .ODD => "ODD"
  | .EVEN => "EVEN"
  | .LOW => "LOW"
  | .HIGH => "HIGH"
  | .DOZEN => "DOZEN"
  | .COLUMN => "COLUMN"

/-- The bet type that a text names. -/
def RouletteBetType.ofText (text : String) : Option RouletteBetType :=
  [.STRAIGHT, .RED, .BLACK, .ODD, .EVEN, .LOW, .HIGH, .DOZEN, .COLUMN].find?
    fun t => t.text == text

/-- Source: `ROULETTE_ODDS_BP`, at its own keys. -/
def rouletteOddsBp : RouletteBetType → ℤ
  | .STRAIGHT => 36 * basisPointsOne
  | .RED | .BLACK | .ODD | .EVEN | .LOW | .HIGH => 2 * basisPointsOne
  | .DOZEN | .COLUMN => 3 * basisPointsOne

/-- The names that every object inherits from `Object.prototype`. -/
def objectPrototypeNames : List String :=
  ["constructor", "__defineGetter__", "__defineSetter__", "hasOwnProperty",
    "__lookupGetter__", "__lookupSetter__", "isPrototypeOf", "propertyIsEnumerable",
    "toString", "valueOf", "__proto__", "toLocaleString"]

/-- `type in ROULETTE_ODDS_BP`. -/
def inRouletteOdds (type : String) : Bool :=
  (RouletteBetType.ofText type).isSome || objectPrototypeNames.contains type

/-- Source: `RouletteSelection`; its type is a text until it has been checked. -/
structure RouletteSelection where
  type : String
  value : Option Js.Number
  deriving DecidableEq

/-- Source: `assertValidSelection`. -/
def assertValidSelection (selection : RouletteSelection) : Except AppError Unit :=
  let type := selection.type
  if !inRouletteOdds type then .error (.rouletteSelection ("Unknown bet type: " ++ type))
  else if !(type == "STRAIGHT" || type == "DOZEN" || type == "COLUMN") then
    match selection.value with
    | some _ => .error (.rouletteSelection (type ++ " does not take a number"))
    | none => .ok ()
  else
    match selection.value.bind Js.Number.asInteger with
    | none => .error (.rouletteSelection (type ++ " requires a whole number"))
    | some value =>
      if type == "STRAIGHT" && (decide (value < 0) || decide (36 < value)) then
        .error (.rouletteSelection "A straight-up bet must name a pocket from 0 to 36")
      else if (type == "DOZEN" || type == "COLUMN") &&
          (decide (value < 1) || decide (3 < value)) then
        .error (.rouletteSelection (type ++ " must be 1, 2 or 3"))
      else .ok ()

/-- Source: `oddsForSelection`.  A name inherited from `Object.prototype` reads a member that
is not a number. -/
def oddsForSelection (selection : RouletteSelection) : Except AppError (Option ℤ) :=
  match assertValidSelection selection with
  | .error e => .error e
  | .ok () => .ok ((RouletteBetType.ofText selection.type).map rouletteOddsBp)

/-- `pocket === selection.value`, and the comparisons of the last two cases. -/
def equalsValue (n : ℤ) (value : Option Js.Number) : Bool :=
  value.bind Js.Number.asInteger == some n

/-- Source: `selectionWins`; no case of the `switch` matches a name inherited from
`Object.prototype`, and the result is then `undefined`. -/
def selectionWins (selection : RouletteSelection) (pocket : ℤ) :
    Except AppError (Option Bool) :=
  match assertValidSelection selection with
  | .error e => .error e
  | .ok () =>
    if pocket < 0 ∨ 36 < pocket then
      .error (.rouletteSelection s!"Pocket {pocket} is not on the wheel")
    else
      .ok <| (RouletteBetType.ofText selection.type).map fun
        | .STRAIGHT => equalsValue pocket selection.value
        | .RED => pocketColour pocket == .red
        | .BLACK => pocketColour pocket == .black
        | .ODD => pocket != 0 && pocket % 2 == 1
        | .EVEN => pocket != 0 && pocket % 2 == 0
        | .LOW => decide (1 ≤ pocket) && decide (pocket ≤ 18)
        | .HIGH => decide (19 ≤ pocket) && decide (pocket ≤ 36)
        | .DOZEN => pocket != 0 && equalsValue ((pocket + 11) / 12) selection.value
        | .COLUMN => pocket != 0 && equalsValue ((pocket - 1) % 3 + 1) selection.value

/-- Source: `settleSelection`. -/
def settleSelection (selection : RouletteSelection) (pocket : ℤ) :
    Except AppError (Option ℤ) :=
  match selectionWins selection pocket with
  | .error e => .error e
  | .ok (some true) => oddsForSelection selection
  | .ok _ => .ok (some 0)

/-- Source: `roulettePocketFromHash`. -/
def roulettePocketFromHash (hashHex : String) : Except AppError ℤ :=
  let digits := hashHex.toList
  if !isHex digits || digits.length < 13 then
    .error (.rouletteSelection "roulettePocketFromHash expects at least 13 hex characters")
  else .ok (parseHex (digits.take 13) % pocketCount : ℕ)

end Tessera
