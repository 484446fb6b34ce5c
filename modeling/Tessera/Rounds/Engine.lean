import Tessera.Rounds.Fairness

/-!
# The round engine

The only code that advances a round.

Source: `src/src/rounds/round-engine.service.ts`.
-/

namespace Tessera

open Transactions Transactions.Program

/-! ## Opening -/

section
variable (config : Config) (crypto : Crypto)

/-- Source: `RoundEngineService.peekNextNonce`. -/
def peekNextNonce (s : Db) : ℕ := (s.rounds.map Round.nonce).foldl max 0 + 1

/-- The last round of a game that was settled or voided, by nonce. -/
def lastSettled (game : GameKind) (s : Db) : Option Round :=
  greatest Round.nonce (s.rounds.filter fun r =>
    r.game == game && (r.status == .SETTLED || r.status == .VOIDED))

/-- `INSERT INTO rounds … RETURNING id, nonce`: the nonce comes from the sequence. -/
def insertDrawnRound (game : GameKind) (outcome : RoundOutcome) (pocket : Option ℤ) :
    Action Uuid := do
  let x ← read
  let nonce ← draw .drawNonce Db.nonceSeq
  insertRound
    { id := x.uuid
      nonce := nonce
      game := game
      status := .OPEN
      seed := outcome.seed
      seedHash := outcome.seedHash
      seedRevealed := none
      crashPointBp := if game = .CRASH then some outcome.crashPointBp else none
      winningPocket := pocket
      chainId := some outcome.chainId
      chainIndex := some outcome.chainIndex
      opensAt := x.now
      locksAt := x.now + config.roundBettingWindowMs
      startedAt := none
      resolvedAt := none
      settledAt := none }
  pure x.uuid

/-- The `try` of `openRoundIfDue`: two statements, each committed by itself. -/
def openDrawnRound (game : GameKind) (outcome : RoundOutcome) (pocket : Option ℤ) :
    Action (Option Uuid) := do
  let id ← autocommit (insertDrawnRound config game outcome pocket)
  autocommit (publish (.roundState id))
  pure (some id)

/-- The rest of `openRoundIfDue` once the intermission is over. -/
def openRound (game : GameKind) : Action (Option Uuid) := do
  let nextNonce ← select peekNextNonce
  let outcome ← drawOutcome config crypto nextNonce
  let pocket ← check <|
    if game = .ROULETTE then
      (roulettePocketFromHash (crypto.hmacSha256 outcome.seed (toString nextNonce))).map some
    else .ok none
  tryCatch (openDrawnRound config game outcome pocket) fun e =>
    if e = .uniqueViolation "rounds_single_live_round_per_game" then pure none else throw e

/-- Source: `RoundEngineService.openRoundIfDue`. -/
def openRoundIfDue (game : GameKind) : Action (Option Uuid) := do
  match (← select (lastSettled game)).bind Round.settledAt with
  | some settledAt => do
    let x ← read
    if x.now - settledAt < config.roundIntermissionMs then pure none
    else openRound config crypto game
  | none => openRound config crypto game

end

/-! ## Transitions -/

/-- `UPDATE rounds SET … WHERE id = … AND status IN (…)`, the CHECK constraints included: how
many rows it wrote. -/
def updateRoundWhere (roundId : Uuid) (from_ : RoundStatus → Bool) (u : RoundUpdate) :
    Action ℕ := do
  let found ← selectForLock .exclusive (fun r : Round => LockKey.round r.id) fun s =>
    (s.round roundId).filter fun r => from_ r.status
  match found with
  | none => pure 0
  | some row =>
    assertChecks (u.row row).violated
    put (.updateRound roundId u)
    pure 1

/-- Tell everyone that the round has changed, if it has. -/
def publishIfChanged (roundId : Uuid) (changed : ℕ) : Action Unit :=
  if changed = 1 then publish (.roundState roundId) else pure ()

/-- Source: `RoundEngineService.lockRound`. -/
def lockRound (roundId : Uuid) : Action Unit :=
  transaction do
    let changed ← updateRoundWhere roundId (· == .OPEN) { status := .LOCKED }
    publishIfChanged roundId changed

/-- Source: `RoundEngineService.startRound`. -/
def startRound (roundId : Uuid) : Action Unit :=
  transaction do
    let x ← read
    let changed ← updateRoundWhere roundId (· == .LOCKED)
      { status := .RUNNING, startedAt := some x.now }
    publishIfChanged roundId changed

/-- Source: `RoundEngineService.resolveRound`. -/
def resolveRound (roundId : Uuid) : Action Unit := do
  match ← select fun s => s.round roundId with
  | none => throw .noResult
  | some round =>
    transaction do
      let x ← read
      let changed ← updateRoundWhere roundId (· == .RUNNING)
        { status := .RESOLVED, resolvedAt := some x.now, seedRevealed := some round.seed }
      publishIfChanged roundId changed

/-! ## Settlement -/

/-- Source: `RoundEngineService.publishBetOutcome`. -/
def publishBetOutcome (betId userId walletId : Uuid) : Action Unit := do
  match ← select fun s => s.bet betId with
  | none => throw .noResult
  | some row =>
    let balance ← getBalance walletId
    publish (.betSettled userId (toBetView row))
    publish (.walletUpdated userId balance.minor)

/-- Source: `RoundEngineService.settleLostBet`. -/
def settleLostBet (bet : Bet) : Action Unit := do
  let x ← read
  let _ ← updateActiveBet bet.id
    { status := .LOST, payoutMinor := Money.zero, settledAt := x.now }
  let _ ← postEnlisted
    { kind := .BET_LOST
      reference := some ⟨"bet", bet.id⟩
      postings := [⟨escrowId, bet.stakeMinor.negate⟩, ⟨houseId, bet.stakeMinor⟩] }
  let walletId ← getWalletAccountId bet.userId
  publishBetOutcome bet.id bet.userId walletId

/-- The selection a bet was stored with.  Source: the first lines of `settleRouletteBet`. -/
def Bet.selection (bet : Bet) : RouletteSelection :=
  ⟨bet.selectionType.getD "null", bet.selectionValue.map Js.numberOfText⟩

/-- Whether a roulette bet is settled as a win, and at which odds.  Source: the test of
`settleRouletteBet`, short-circuiting. -/
def Bet.winsAt (bet : Bet) (pocket : ℤ) : Except AppError (Option ℤ) :=
  match bet.selectionType, bet.oddsBp with
  | some type, some oddsBp =>
    if type.isEmpty then .ok none
    else
      match selectionWins bet.selection pocket with
      | .error e => .error e
      | .ok (some true) => .ok (some oddsBp)
      | .ok _ => .ok none
  | _, _ => .ok none

/-- The part of `settleRouletteBet` that pays a winner. -/
def settleWonBet (bet : Bet) (oddsBp : ℤ) : Action Unit := do
  let multiplier ← check (basisPointsFromRaw oddsBp)
  let payout ← check (bet.stakeMinor.applyMultiplier multiplier)
  let profit ← check (Money.sub payout bet.stakeMinor)
  let x ← read
  let _ ← updateActiveBet bet.id
    { status := .WON
      settledMultiplierBp := some oddsBp
      payoutMinor := payout
      settledAt := x.now }
  let walletId ← getWalletAccountId bet.userId
  let _ ← postEnlisted
    { kind := .BET_CASHOUT
      reference := some ⟨"bet", bet.id⟩
      postings := winPostings walletId bet.stakeMinor profit }
  let displayName ← select (displayNameOf bet.userId)
  let roundId ← select fun s => (s.bet bet.id).map Bet.roundId
  publish (.betWon roundId .ROULETTE bet.id displayName bet.stakeMinor.minor
    (some bet.selection) oddsBp payout.minor)
  publishBetOutcome bet.id bet.userId walletId

/-- Source: `RoundEngineService.settleRouletteBet`. -/
def settleRouletteBet (bet : Bet) (pocket : ℤ) : Action Unit := do
  match ← check (bet.winsAt pocket) with
  | none => settleLostBet bet
  | some oddsBp => settleWonBet bet oddsBp

/-- `SELECT … FROM bets WHERE round_id = … AND status = 'ACTIVE' FOR UPDATE`, its rows in the
order of the scan. -/
def lockActiveBets (roundId : Uuid) : Action (List Bet) := do
  let x ← read
  let seen ← select fun s =>
    s.bets.filter fun b => b.roundId == roundId && b.status == .ACTIVE
  lockEach (fun b => LockKey.bet b.id)
    (fun b s => (s.bet b.id).filter fun c => c.roundId == roundId && c.status == .ACTIVE)
    (x.order.permute seen)

/-- Source: the loop body of `settleRound`. -/
def settleBet (round : Round) (bet : Bet) : Action Unit :=
  match round.game with
  | .ROULETTE => settleRouletteBet bet (round.winningPocket.getD 0)
  | .CRASH => settleLostBet bet

/-- Source: `RoundEngineService.settleRound`. -/
def settleRound (roundId : Uuid) : Action Unit :=
  transaction do
    match ← selectForLock .exclusive (fun r : Round => LockKey.round r.id)
        fun s => s.round roundId with
    | none => pure ()
    | some round =>
      if round.status ≠ .RESOLVED then pure ()
      else do
        let activeBets ← lockActiveBets roundId
        forEach (settleBet round) activeBets
        let x ← read
        let _ ← updateRoundWhere roundId (· == .RESOLVED)
          { status := .SETTLED, settledAt := some x.now }
        publish (.roundState roundId)

/-- Source: `RoundEngineService.refundBet`. -/
def refundBet (bet : Bet) : Action Unit := do
  let x ← read
  let _ ← updateActiveBet bet.id
    { status := .VOIDED, payoutMinor := bet.stakeMinor, settledAt := x.now }
  let walletId ← getWalletAccountId bet.userId
  let _ ← postEnlisted
    { kind := .ROUND_VOID_REFUND
      reference := some ⟨"bet", bet.id⟩
      postings := [⟨escrowId, bet.stakeMinor.negate⟩, ⟨walletId, bet.stakeMinor⟩] }
  publishBetOutcome bet.id bet.userId walletId

/-- Source: `RoundEngineService.voidRound`. -/
def voidRound (roundId : Uuid) : Action Unit :=
  transaction do
    match ← selectForLock .exclusive (fun r : Round => LockKey.round r.id)
        fun s => s.round roundId with
    | none => pure ()
    | some round =>
      if round.status = .VOIDED ∨ round.status = .SETTLED then pure ()
      else do
        let activeBets ← lockActiveBets roundId
        forEach refundBet activeBets
        let x ← read
        let _ ← updateRoundWhere roundId (fun _ => true)
          { status := .VOIDED, settledAt := some x.now, seedRevealed := some round.seed }
        publish (.roundState roundId)

/-! ## The tick -/

/-- The live round that `tickGame` looks at. -/
def liveRoundOf (game : GameKind) (s : Db) : Option Round :=
  greatest Round.nonce (s.rounds.filter fun r =>
    r.game == game && (r.status.isLive || r.status == .RESOLVED))

/-- How long after its start a running round is resolved. -/
def crashAfterMs (config : Config) (round : Round) : ℤ :=
  match round.game with
  | .CRASH => elapsedAtMultiplier (round.crashPointBp.getD 0)
  | .ROULETTE => config.rouletteSpinMs

/-- Source: `RoundEngineService.tickGame`. -/
def tickGame (config : Config) (crypto : Crypto) (game : GameKind) : Action Unit := do
  match ← select (liveRoundOf game) with
  | none =>
    let _ ← openRoundIfDue config crypto game
    pure ()
  | some live =>
    let x ← read
    match live.status with
    | .OPEN => if live.locksAt ≤ x.now then lockRound live.id else pure ()
    | .LOCKED => startRound live.id
    | .RUNNING =>
      match live.startedAt with
      | none => pure ()
      | some startedAt =>
        let elapsed := x.now - startedAt
        if crashAfterMs config live + config.roundStaleGraceMs ≤ elapsed then
          voidRound live.id
        else if crashAfterMs config live ≤ elapsed then resolveRound live.id
        else pure ()
    | .RESOLVED => settleRound live.id
    | _ => pure ()

/-- Source: `RoundEngineService.tick`. -/
def tick (config : Config) (crypto : Crypto) : Action Unit :=
  forEach (tickGame config crypto) [.CRASH, .ROULETTE]

end Tessera
