import Tessera.Ledger.Service

/-!
# Betting on a round

The two write paths a player has, and the views in which bets and rounds are shown.

Source: `src/src/rounds/rounds.service.ts`, `bet-view.mapper.ts`,
`events/round-event-bus.service.ts`.
-/

namespace Tessera

open Transactions Transactions.Program

/-! ## Views -/

/-- Source: `bet-view.mapper.ts` `toBetView`. -/
def toBetView (row : Bet) (game : GameKind := .CRASH) : BetView where
  id := row.id
  roundId := row.roundId
  game := game
  selection :=
    match row.selectionType with
    | none => none
    | some type => if type.isEmpty then none else
      some ⟨type, row.selectionValue.map Js.numberOfText⟩
  oddsBp := row.oddsBp
  stakeMinor := row.stakeMinor.minor
  stake := row.stakeMinor.format
  status := row.status
  settledMultiplierBp := row.settledMultiplierBp
  payoutMinor := row.payoutMinor.map Money.minor
  payout := row.payoutMinor.map Money.format
  createdAt := row.createdAt

/-- Source: `round.types.ts` `RoundView`; the time at which it was made is left out. -/
structure RoundView where
  id : Uuid
  game : GameKind
  nonce : ℕ
  status : RoundStatus
  seedHash : String
  seedRevealed : Option String
  crashPointBp : Option ℤ
  winningPocket : Option ℤ
  opensAt : Time
  locksAt : Time
  startedAt : Option Time
  resolvedAt : Option Time
  deriving DecidableEq

/-- `status === 'RESOLVED' || status === 'SETTLED'`. -/
def RoundStatus.concluded : RoundStatus → Bool
  | .RESOLVED | .SETTLED => true
  | _ => false

/-- `concluded || status === 'VOIDED'`. -/
def RoundStatus.revealed (status : RoundStatus) : Bool :=
  status.concluded || status == .VOIDED

/-- Source: `RoundsService.toRoundView`. -/
def toRoundView (row : Round) : RoundView where
  id := row.id
  game := row.game
  nonce := row.nonce
  status := row.status
  seedHash := row.seedHash
  seedRevealed := if row.status.revealed then row.seedRevealed else none
  crashPointBp := if row.status.concluded then row.crashPointBp else none
  winningPocket := if row.status.concluded then row.winningPocket else none
  opensAt := row.opensAt
  locksAt := row.locksAt
  startedAt := row.startedAt
  resolvedAt := row.resolvedAt

/-! ## Placing a bet -/

/-- Source: the argument of `RoundsService.placeBet`. -/
structure PlaceBetInput where
  userId : Uuid
  roundId : Uuid
  stakeMinor : ℤ
  idempotencyKey : String
  selection : Option RouletteSelection
  deriving DecidableEq

/-- What `priceSelection` returns. -/
structure PricedSelection where
  selectionType : Option String
  selectionValue : Option String
  oddsBp : Option ℤ
  deriving DecidableEq

/-- Source: `RoundsService.priceSelection`.  A type inherited from `Object.prototype` reads odds
that are not a number. -/
def priceSelection (game : GameKind) (selection : Option RouletteSelection) :
    Except AppError PricedSelection :=
  match game, selection with
  | .CRASH, some _ => .error (.invalidSelection "Crash bets do not take a selection")
  | .CRASH, none => .ok ⟨none, none, none⟩
  | .ROULETTE, none =>
    .error (.invalidSelection "A roulette bet must name what it is backing")
  | .ROULETTE, some selection =>
    match assertValidSelection selection with
    | .error e => .error (.invalidSelection e.message)
    | .ok () =>
      match oddsForSelection selection with
      | .error e => .error e
      | .ok odds =>
        .ok ⟨some selection.type,
          (selection.value.bind Js.Number.asInteger).map Js.textOfInteger, odds⟩

/-- Source: `RoundsService.findByIdempotencyKey`. -/
def findByIdempotencyKey (userId : Uuid) (idempotencyKey : String) (s : Db) : Option Bet :=
  s.bets.find? fun b => b.userId == userId && b.idempotencyKey == idempotencyKey

/-- Source: `RoundsService.displayNameOf`, and the engine's method of the same name. -/
def displayNameOf (userId : Uuid) (s : Db) : String :=
  ((s.user userId).map User.displayName).getD "Player"

/-- Source: `RoundEventBusService.publish` inside a transaction.  Every event is far below
the size limit that it checks. -/
def publish (e : RoundDomainEvent) : Action Unit := put (.notify e)

/-- The part of `placeBet` that follows the balance check: the bet row, the postings and the
notifications. -/
def recordBet (input : PlaceBetInput) (stake : Money) (game : GameKind)
    (priced : PricedSelection) (walletId : Uuid) : Action BetView := do
  let x ← read
  let bet : Bet :=
    { id := x.uuid
      userId := input.userId
      roundId := input.roundId
      stakeMinor := stake
      status := .ACTIVE
      settledMultiplierBp := none
      payoutMinor := none
      idempotencyKey := input.idempotencyKey
      createdAt := x.now
      settledAt := none
      selectionType := priced.selectionType
      selectionValue := priced.selectionValue
      oddsBp := priced.oddsBp }
  -- odds that are not a number reach Postgres as a text it cannot read
  ensure (priced.selectionType.isNone || priced.oddsBp.isSome) (.invalidInput "odds_bp")
  insertBet bet
  let _ ← postEnlisted
    { kind := .BET_PLACED
      reference := some ⟨"bet", bet.id⟩
      postings := [⟨walletId, stake.negate⟩, ⟨escrowId, stake⟩] }
  let displayName ← select (displayNameOf input.userId)
  let balance ← getBalance walletId
  publish (.betPlaced input.roundId game bet.id displayName bet.stakeMinor.minor
    input.selection)
  publish (.walletUpdated input.userId balance.minor)
  pure (toBetView bet game)

/-- The transaction of `RoundsService.placeBet`. -/
def placeBetTransaction (input : PlaceBetInput) (stake : Money) : Action BetView := do
  match ← select (findByIdempotencyKey input.userId input.idempotencyKey) with
  | some replay => pure (toBetView replay)
  | none =>
    match ← selectForLock .share (fun r : Round => LockKey.round r.id)
        fun s => s.round input.roundId with
    | none => throw (.roundNotFound input.roundId)
    | some round =>
      if round.status ≠ .OPEN then throw (.roundNotOpen round.status)
      else do
        let priced ← check (priceSelection round.game input.selection)
        let walletId ← getWalletAccountId input.userId
        let _ ← lockAndAssertSufficient walletId stake
        recordBet input stake round.game priced walletId

/-- The `catch` of `RoundsService.placeBet`: the loser of the race for the unique index reads
back what the winner wrote. -/
def placeBetRecover (input : PlaceBetInput) (e : AppError) : Action BetView :=
  if e = .uniqueViolation "bets_user_idempotency" then do
    match ← select (findByIdempotencyKey input.userId input.idempotencyKey) with
    | some existing => pure (toBetView existing)
    | none => throw e
  else throw e

/-- Source: `RoundsService.placeBet`. -/
def placeBet (config : Config) (input : PlaceBetInput) : Action BetView :=
  if input.stakeMinor < config.minStakeMinor ∨ config.maxStakeMinor < input.stakeMinor then
    throw (.stakeOutOfRange config.minStakeMinor config.maxStakeMinor)
  else do
    let stake ← check (Money.fromMinor input.stakeMinor)
    tryCatch (transaction (placeBetTransaction input stake)) (placeBetRecover input)

/-! ## Cashing out -/

/-- Source: the argument of `RoundsService.cashOut`. -/
structure CashOutInput where
  userId : Uuid
  betId : Uuid
  deriving DecidableEq

/-- `SELECT … FOR UPDATE` of one bet of a user. -/
def lockBetOfUser (input : CashOutInput) : Action (Option Bet) :=
  selectForLock .exclusive (fun b : Bet => LockKey.bet b.id) fun s =>
    (s.bet input.betId).filter fun b => b.userId == input.userId

/-- `UPDATE bets SET … WHERE id = … AND status = 'ACTIVE'`, the CHECK constraints included:
the row it wrote. -/
def updateActiveBet (betId : Uuid) (u : BetUpdate) : Action (Option Bet) := do
  let found ← selectForLock .exclusive (fun b : Bet => LockKey.bet b.id) fun s =>
    (s.bet betId).filter fun b => b.status == .ACTIVE
  match found with
  | none => pure none
  | some row =>
    assertChecks (u.row row).violated
    put (.updateBet betId u)
    pure (some (u.row row))

/-- The postings of a win: the stake comes back out of escrow, and winnings above it are the
house's loss. -/
def winPostings (walletId : Uuid) (stake profit : Money) : List Posting :=
  [⟨escrowId, stake.negate⟩, ⟨walletId, stake⟩] ++
    if profit.isPositive then [⟨houseId, profit.negate⟩, ⟨walletId, profit⟩] else []

/-- The part of `cashOut` that follows its checks. -/
def payCashOut (input : CashOutInput) (bet : Bet) (game : GameKind) (serverNow : Time)
    (multiplierBp : ℤ) : Action BetView := do
  let multiplier ← check (basisPointsFromRaw multiplierBp)
  let payout ← check (bet.stakeMinor.applyMultiplier multiplier)
  let profit ← check (Money.sub payout bet.stakeMinor)
  match ← updateActiveBet bet.id
      { status := .WON
        settledMultiplierBp := some multiplierBp
        payoutMinor := payout
        settledAt := serverNow } with
  | none => throw (.betAlreadySettled "settled")
  | some updated =>
    let walletId ← getWalletAccountId input.userId
    let _ ← postEnlisted
      { kind := .BET_CASHOUT
        reference := some ⟨"bet", bet.id⟩
        postings := winPostings walletId bet.stakeMinor profit }
    let displayName ← select (displayNameOf input.userId)
    let balance ← getBalance walletId
    publish (.betWon (some bet.roundId) game bet.id displayName bet.stakeMinor.minor none
      multiplierBp payout.minor)
    publish (.walletUpdated input.userId balance.minor)
    publish (.betSettled input.userId (toBetView updated))
    pure (toBetView updated)

/-- The checks of `cashOut` on the round, which it reads without a lock. -/
def cashOutActive (input : CashOutInput) (bet : Bet) : Action BetView := do
  match ← select fun s => s.round bet.roundId with
  | none => throw .noResult
  | some round =>
    match round.game, round.crashPointBp with
    | .CRASH, some crashPointBp =>
      match round.status, round.startedAt with
      | .RUNNING, some startedAt => do
        let x ← read
        let multiplierBp := multiplierAtElapsed (x.now - startedAt)
        if crashPointBp ≤ multiplierBp then throw (.cashOutTooLate crashPointBp)
        else payCashOut input bet round.game x.now multiplierBp
      | status, _ => throw (.roundNotRunning status)
    | game, _ => throw (.gameDoesNotSupportCashOut game)

/-- Source: `RoundsService.cashOut`. -/
def cashOut (input : CashOutInput) : Action BetView :=
  transaction do
    match ← lockBetOfUser input with
    | none => throw .noBetOnRound
    | some bet =>
      match bet.status with
      | .WON => pure (toBetView bet)
      | .ACTIVE => cashOutActive input bet
      | status => throw (.betAlreadySettled status.text)

end Tessera
