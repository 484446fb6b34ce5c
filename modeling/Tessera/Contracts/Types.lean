import Mathlib.Tactic

/-!
# The words of the system

The enumerations and identifiers that every other module speaks in, and the errors that its
operations end with.

Source: `packages/contracts/src/round.types.ts`, `ledger.types.ts`, `database.types.ts`, and the
`exceptions` folders.
-/

namespace Tessera

/-- A UUID as the 128-bit number it writes in hexadecimal.  `localeCompare` on two UUIDs of the
canonical lower-case spelling compares these numbers. -/
abbrev Uuid := ℕ

/-- Milliseconds since the epoch. -/
abbrev Time := ℤ

/-- What `gen_random_uuid()` and `randomUUID()` return: version 4, so never one of the low
numbers that name the system accounts. -/
def Uuid.isVersion4 (u : Uuid) : Bool :=
  u / 2 ^ 76 % 16 == 4

/-- The canonical spelling, five groups of lower-case hexadecimal digits. -/
def Uuid.text (u : Uuid) : String :=
  let digits := Nat.toDigits 16 u
  let all := List.replicate (32 - digits.length) '0' ++ digits
  String.intercalate "-" ([all.take 8, (all.drop 8).take 4, (all.drop 12).take 4,
    (all.drop 16).take 4, all.drop 20].map String.ofList)

/-- Source: `round.types.ts` `GameKind`. -/
inductive GameKind
  | CRASH
  | ROULETTE
  deriving DecidableEq, Repr

/-- Source: `round.types.ts` `RoundStatus`. -/
inductive RoundStatus
  | OPEN
  | LOCKED
  | RUNNING
  | RESOLVED
  | SETTLED
  | VOIDED
  deriving DecidableEq, Repr

/-- Source: `round.types.ts` `BetStatus`. -/
inductive BetStatus
  | ACTIVE
  | WON
  | LOST
  | VOIDED
  deriving DecidableEq, Repr

/-- Source: `database.types.ts` `AccountKind`, the enum `account_kind`. -/
inductive AccountKind
  | MINT
  | WALLET
  | ESCROW
  | HOUSE
  deriving DecidableEq, Repr

/-- The column `accounts.key`: `SYSTEM:<kind>`, `USER:<uuid>:WALLET`, or any other text. -/
inductive AccountKey
  | system (kind : AccountKind)
  | wallet (userId : Uuid)
  | other (text : String)
  deriving DecidableEq, Repr

/-- Source: `ledger.types.ts` `TransactionKind`. -/
inductive TransactionKind
  | SIGNUP_GRANT
  | BET_PLACED
  | BET_CASHOUT
  | BET_LOST
  | ROUND_VOID_REFUND
  deriving DecidableEq, Repr

/-- The rounds of the partial index `rounds_single_live_round_per_game`. -/
def RoundStatus.isLive : RoundStatus → Bool
  | .OPEN | .LOCKED | .RUNNING => true
  | _ => false

/-- The names the source writes. -/
def GameKind.text : GameKind → String
  | .CRASH => "CRASH"
  | .ROULETTE => "ROULETTE"

@[inherit_doc GameKind.text]
def RoundStatus.text : RoundStatus → String
  | .OPEN => "OPEN"
  | .LOCKED => "LOCKED"
  | .RUNNING => "RUNNING"
  | .RESOLVED => "RESOLVED"
  | .SETTLED => "SETTLED"
  | .VOIDED => "VOIDED"

@[inherit_doc GameKind.text]
def BetStatus.text : BetStatus → String
  | .ACTIVE => "ACTIVE"
  | .WON => "WON"
  | .LOST => "LOST"
  | .VOIDED => "VOIDED"

@[inherit_doc GameKind.text]
def AccountKind.text : AccountKind → String
  | .MINT => "MINT"
  | .WALLET => "WALLET"
  | .ESCROW => "ESCROW"
  | .HOUSE => "HOUSE"

@[inherit_doc GameKind.text]
def AccountKey.text : AccountKey → String
  | .system kind => "SYSTEM:" ++ kind.text
  | .wallet userId => "USER:" ++ userId.text ++ ":WALLET"
  | .other text => text

/-- The errors that an operation ends with: those the application throws, those the database
raises, and the loss of the connection. -/
inductive AppError
  -- `ledger.exceptions.ts`
  | unbalancedTransaction (sum : ℤ)
  | insufficientFunds (available requested : ℤ)
  | accountNotFound (identifier : Uuid ⊕ AccountKey)
  -- `rounds.exceptions.ts`
  | noActiveRound
  | roundNotFound (roundId : Uuid)
  | roundNotOpen (status : RoundStatus)
  | roundNotRunning (status : RoundStatus)
  | invalidSelection (message : String)
  | gameDoesNotSupportCashOut (game : GameKind)
  | cashOutTooLate (crashPointBp : ℤ)
  | noBetOnRound
  | betAlreadySettled (status : String)
  | stakeOutOfRange (minMinor maxMinor : ℤ)
  -- `auth.exceptions.ts`
  | emailAlreadyRegistered
  | invalidCredentials
  | refreshTokenReuse
  | invalidRefreshToken
  -- `money.ts`, `roulette.ts`, `fairness.ts`, `chain.ts`
  | moneyError (message : String)
  | rangeError (message : String)
  | rouletteSelection (message : String)
  -- raised by Postgres, or by the driver that reads its rows
  | uniqueViolation (constraint : String)
  | checkViolation (constraint : String)
  | foreignKeyViolation (constraint : String)
  | appendOnly (table operation : String)
  | tooFewPostings (transactionId : Uuid) (legs : ℕ)
  | unbalancedPostings (transactionId : Uuid) (total : ℤ)
  | negativeBalance (accountId : Uuid) (kind : AccountKind) (attempted : ℤ)
  | bigintOutOfRange
  | unsafeBigint (value : ℤ)
  | invalidInput (column : String)
  | noResult
  | connectionLost
  deriving DecidableEq

/-- The text an error carries.  Source: the constructors of the exception classes, the
`RAISE EXCEPTION` statements of the initial migration, `database.module.ts`. -/
def AppError.message : AppError → String
  | .unbalancedTransaction sum => s!"Refusing to post: the postings sum to {sum}, not 0"
  | .insufficientFunds available requested =>
    s!"Insufficient funds: balance {available}, requested {requested}"
  | .accountNotFound (.inl id) => "No such ledger account: " ++ id.text
  | .accountNotFound (.inr key) => "No such ledger account: " ++ key.text
  | .noActiveRound => "No round is currently active"
  | .roundNotFound roundId => "No such round: " ++ roundId.text
  | .roundNotOpen status => "Betting is closed: the round is " ++ status.text
  | .roundNotRunning status => "Cannot cash out: the round is " ++ status.text
  | .invalidSelection message => message
  | .gameDoesNotSupportCashOut game =>
    game.text ++ " bets are settled when the round resolves; there is nothing to cash out"
  | .cashOutTooLate _ => "Too late — the round had already crashed"
  | .noBetOnRound => "You have no active bet on this round"
  | .betAlreadySettled status => "This bet is already " ++ status.toLower.replace "_" " "
  | .stakeOutOfRange minMinor maxMinor =>
    s!"Stake must be between {minMinor} and {maxMinor} minor units"
  | .emailAlreadyRegistered => "That email address is already registered"
  | .invalidCredentials => "Invalid email or password"
  | .refreshTokenReuse =>
    "Refresh token reuse detected; all sessions for this login have been revoked"
  | .invalidRefreshToken => "Refresh token is invalid or expired"
  | .moneyError message => message
  | .rangeError message => message
  | .rouletteSelection message => message
  | .uniqueViolation constraint =>
    "duplicate key value violates unique constraint \"" ++ constraint ++ "\""
  | .checkViolation constraint => "new row violates check constraint \"" ++ constraint ++ "\""
  | .foreignKeyViolation constraint =>
    "insert or update violates foreign key constraint \"" ++ constraint ++ "\""
  | .appendOnly table operation =>
    table ++ " is append-only; " ++ operation ++ " is not permitted"
  | .tooFewPostings transactionId legs =>
    "ledger transaction " ++ transactionId.text ++
      s!" has {legs} posting(s); double-entry requires at least 2"
  | .unbalancedPostings transactionId total =>
    "ledger transaction " ++ transactionId.text ++ s!" is unbalanced (postings sum to {total})"
  | .negativeBalance accountId kind attempted =>
    "account " ++ accountId.text ++ " (" ++ kind.text ++
      s!") may not hold a negative balance (attempted {attempted})"
  | .bigintOutOfRange => "bigint out of range"
  | .unsafeBigint value =>
    s!"BIGINT {value} exceeds the safe integer range and cannot be read as a number"
  | .invalidInput column => "invalid input syntax for column \"" ++ column ++ "\""
  | .noResult => "no result"
  | .connectionLost => "Connection terminated unexpectedly"

end Tessera
