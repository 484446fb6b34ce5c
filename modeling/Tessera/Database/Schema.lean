import Tessera.Contracts.Roulette
import Tessera.Relational.Table
import Tessera.Transactions.Pool

/-!
# The migrated schema

The rows of the nine tables, their CHECK constraints, and what each row write does to them.
Columns that no modelled function reads are left out.

* `Db` — the tables, the two sequences and the notifications delivered so far;
* `Write` — the row writes, an `UPDATE` naming just the columns it sets;
* `Db.apply`, `Db.deferred`, `database` — their effect, and the checks deferred to commit.

Source: `migrations/`, `src/database/database.types.ts`, `src/rounds/events/round-events.ts`.
-/

namespace Tessera

open Relational

/-! ## Rows -/

/-- A value of the column type `citext`: a text that is compared by its lower case in the locale of
the database. -/
structure Citext where
  text : String
  lower : String
  deriving DecidableEq

/-- Source: `users`. -/
structure User where
  id : Uuid
  email : Citext
  displayName : String
  passwordHash : String
  role : String := "user"
  status : String := "active"
  deriving DecidableEq

/-- Source: `accounts`. -/
structure Account where
  id : Uuid
  kind : AccountKind
  ownerUserId : Option Uuid
  key : AccountKey
  deriving DecidableEq

/-- What a journal row refers to; both columns are set or neither is
(`transactions_reference_paired`). -/
structure Reference where
  type : String
  id : Uuid
  deriving DecidableEq

/-- Source: `transactions`, the journal. -/
structure Transaction where
  id : Uuid
  kind : TransactionKind
  reference : Option Reference
  deriving DecidableEq

/-- Source: `entries`, the postings. -/
structure Entry where
  id : ℕ
  transactionId : Uuid
  accountId : Uuid
  amount : ℤ
  createdAt : Time
  deriving DecidableEq

/-- Source: `balances`, the cache. -/
structure Balance where
  accountId : Uuid
  balance : ℤ
  deriving DecidableEq

/-- Source: `rounds`. -/
structure Round where
  id : Uuid
  nonce : ℕ
  game : GameKind
  status : RoundStatus
  seed : String
  seedHash : String
  seedRevealed : Option String
  crashPointBp : Option ℤ
  winningPocket : Option ℤ
  chainId : Option Uuid
  chainIndex : Option ℤ
  opensAt : Time
  locksAt : Time
  startedAt : Option Time
  resolvedAt : Option Time
  settledAt : Option Time
  deriving DecidableEq

/-- Source: `bets`. -/
structure Bet where
  id : Uuid
  userId : Uuid
  roundId : Uuid
  stakeMinor : Money
  status : BetStatus
  settledMultiplierBp : Option ℤ
  payoutMinor : Option Money
  idempotencyKey : String
  createdAt : Time
  settledAt : Option Time
  selectionType : Option String
  selectionValue : Option String
  oddsBp : Option ℤ
  deriving DecidableEq

/-- Source: `fairness_chains`. -/
structure FairnessChain where
  id : Uuid
  genesisHash : String
  terminalSeed : String
  length : ℕ
  firstNonce : ℕ
  createdAt : Time
  deriving DecidableEq

/-- Source: `refresh_tokens`. -/
structure RefreshToken where
  id : Uuid
  userId : Uuid
  familyId : Uuid
  tokenHash : String
  expiresAt : Time
  usedAt : Option Time
  revokedAt : Option Time
  deriving DecidableEq

/-! ## Notifications -/

/-- Source: `round.types.ts` `BetView`, the instants kept as numbers. -/
structure BetView where
  id : Uuid
  roundId : Uuid
  game : GameKind
  selection : Option RouletteSelection
  oddsBp : Option ℤ
  stakeMinor : ℤ
  stake : String
  status : BetStatus
  settledMultiplierBp : Option ℤ
  payoutMinor : Option ℤ
  payout : Option String
  createdAt : Time
  deriving DecidableEq

/-- Source: `round-events.ts` `RoundDomainEvent`. -/
inductive RoundDomainEvent
  | roundState (roundId : Uuid)
  | betPlaced (roundId : Uuid) (game : GameKind) (betId : Uuid) (displayName : String)
      (stakeMinor : ℤ) (selection : Option RouletteSelection)
  | betWon (roundId : Option Uuid) (game : GameKind) (betId : Uuid) (displayName : String)
      (stakeMinor : ℤ) (selection : Option RouletteSelection) (settledMultiplierBp : ℤ)
      (payoutMinor : ℤ)
  | betSettled (userId : Uuid) (bet : BetView)
  | walletUpdated (userId : Uuid) (balanceMinor : ℤ)
  deriving DecidableEq

/-! ## The database -/

/-- The committed state. -/
structure Db where
  users : List User := []
  accounts : List Account := []
  transactions : List Transaction := []
  entries : List Entry := []
  balances : List Balance := []
  rounds : List Round := []
  bets : List Bet := []
  chains : List FairnessChain := []
  tokens : List RefreshToken := []
  /-- The last value drawn for `rounds.nonce`. -/
  nonceSeq : ℕ := 0
  /-- The last value drawn for `entries.id`. -/
  entrySeq : ℕ := 0
  /-- The notifications delivered, oldest first. -/
  delivered : List RoundDomainEvent := []
  deriving DecidableEq

/-- Source: `database.types.ts` `SYSTEM_ACCOUNTS`. -/
def mintId : Uuid := 1

@[inherit_doc mintId]
def escrowId : Uuid := 2

@[inherit_doc mintId]
def houseId : Uuid := 3

/-- Source: `database.types.ts` `walletKey`. -/
def walletKey (userId : Uuid) : AccountKey := .wallet userId

/-- The state after the last migration, its three system accounts seeded. -/
def migrated : Db where
  accounts :=
    [⟨mintId, .MINT, none, .system .MINT⟩, ⟨escrowId, .ESCROW, none, .system .ESCROW⟩,
      ⟨houseId, .HOUSE, none, .system .HOUSE⟩]
  balances := [⟨mintId, 0⟩, ⟨escrowId, 0⟩, ⟨houseId, 0⟩]

namespace Db

def user (s : Db) (id : Uuid) : Option User := lookup User.id s.users id
def account (s : Db) (id : Uuid) : Option Account := lookup Account.id s.accounts id
def accountByKey (s : Db) (key : AccountKey) : Option Account := lookup Account.key s.accounts key
def balance (s : Db) (id : Uuid) : Option Balance := lookup Balance.accountId s.balances id
def round (s : Db) (id : Uuid) : Option Round := lookup Round.id s.rounds id
def bet (s : Db) (id : Uuid) : Option Bet := lookup Bet.id s.bets id
def chain (s : Db) (id : Uuid) : Option FairnessChain := lookup FairnessChain.id s.chains id
def token (s : Db) (id : Uuid) : Option RefreshToken := lookup RefreshToken.id s.tokens id

/-- The balance of an account, zero when it has no row. -/
def balanceOf (s : Db) (id : Uuid) : ℤ := ((s.balance id).map Balance.balance).getD 0

/-- The postings of one journal row. -/
def postings (s : Db) (transactionId : Uuid) : List Entry :=
  s.entries.filter fun e => decide (e.transactionId = transactionId)

end Db

/-! ## Constraints -/

/-- The range of a `bigint` column. -/
def inBigint (n : ℤ) : Bool := decide (-2 ^ 63 ≤ n ∧ n < 2 ^ 63)

/-- The first violated constraint of a list, in the order Postgres checks them: by name. -/
def firstViolated (checks : List (String × Bool)) : Option String :=
  (checks.find? fun c => !c.2).map Prod.fst

/-- The CHECK constraints of `rounds`. -/
def Round.violated (r : Round) : Option String :=
  firstViolated
    [("rounds_chain_index_check", r.chainIndex.all fun i => decide (0 < i)),
      ("rounds_crash_point_bp_check", r.crashPointBp.all fun c => decide (10000 ≤ c)),
      ("rounds_flying_has_started",
        !(r.status == .RUNNING || r.status == .RESOLVED || r.status == .SETTLED)
          || r.startedAt.isSome),
      ("rounds_outcome_matches_game",
        match r.game with
        | .CRASH => r.crashPointBp.isSome && r.winningPocket.isNone
        | .ROULETTE => r.winningPocket.isSome && r.crashPointBp.isNone),
      ("rounds_reveal_matches_seed", r.seedRevealed.all fun revealed => revealed == r.seed),
      ("rounds_seed_revealed_only_after_crash",
        r.seedRevealed.isNone || r.status == .RESOLVED || r.status == .SETTLED
          || r.status == .VOIDED),
      ("rounds_started_before_crashed",
        r.resolvedAt.all fun resolved => r.startedAt.any fun started => decide (started ≤ resolved)),
      ("rounds_voided_has_no_crash", !(r.status == .VOIDED) || r.resolvedAt.isNone),
      ("rounds_winning_pocket_check",
        r.winningPocket.all fun pocket => decide (0 ≤ pocket ∧ pocket ≤ 36))]

/-- The CHECK constraints of `bets`. -/
def Bet.violated (b : Bet) : Option String :=
  firstViolated
    [("bets_cashout_fields_together",
        if b.status = .WON then b.settledMultiplierBp.isSome && b.payoutMinor.isSome
        else b.settledMultiplierBp.isNone),
      ("bets_cashout_multiplier_bp_check",
        b.settledMultiplierBp.all fun m => decide (10000 ≤ m)),
      ("bets_lost_pays_nothing",
        !(b.status == .LOST) || b.payoutMinor.all fun p => decide (p.minor = 0)),
      ("bets_odds_bp_check", b.oddsBp.all fun odds => decide (10000 < odds)),
      ("bets_payout_minor_check", b.payoutMinor.all fun p => decide (0 ≤ p.minor)),
      ("bets_selection_requires_odds", b.selectionType.isSome == b.oddsBp.isSome),
      ("bets_stake_minor_check", decide (0 < b.stakeMinor.minor))]

/-- The CHECK constraints of `users`; the text is trimmed of spaces before it is measured. -/
def User.violated (u : User) : Option String :=
  let trimmed := u.displayName.toList.dropWhile (· == ' ') |>.reverse.dropWhile (· == ' ')
  firstViolated
    [("users_display_name_check", decide (2 ≤ trimmed.length ∧ trimmed.length ≤ 40)),
      ("users_role_check", u.role == "user" || u.role == "admin"),
      ("users_status_check",
        u.status == "active" || u.status == "suspended" || u.status == "pending_verification")]

/-- The CHECK constraint of `accounts`. -/
def Account.violated (a : Account) : Option String :=
  firstViolated
    [("accounts_owner_matches_kind", (a.kind == .WALLET) == a.ownerUserId.isSome)]

/-! ## Row writes -/

/-- The columns that an `UPDATE rounds` of the engine sets; the others keep their values. -/
structure RoundUpdate where
  status : RoundStatus
  startedAt : Option Time := none
  resolvedAt : Option Time := none
  settledAt : Option Time := none
  seedRevealed : Option String := none
  deriving DecidableEq

/-- The columns that an `UPDATE bets` sets. -/
structure BetUpdate where
  status : BetStatus
  settledMultiplierBp : Option ℤ := none
  payoutMinor : Money
  settledAt : Time
  deriving DecidableEq

/-- The columns that an `UPDATE refresh_tokens` sets. -/
inductive TokenUpdate
  | used (at_ : Time)
  | revoked (at_ : Time)
  deriving DecidableEq

def RoundUpdate.row (u : RoundUpdate) (r : Round) : Round :=
  { r with
    status := u.status
    startedAt := u.startedAt.or r.startedAt
    resolvedAt := u.resolvedAt.or r.resolvedAt
    settledAt := u.settledAt.or r.settledAt
    seedRevealed := u.seedRevealed.or r.seedRevealed }

def BetUpdate.row (u : BetUpdate) (b : Bet) : Bet :=
  { b with
    status := u.status
    settledMultiplierBp := u.settledMultiplierBp.or b.settledMultiplierBp
    payoutMinor := some u.payoutMinor
    settledAt := some u.settledAt }

def TokenUpdate.row : TokenUpdate → RefreshToken → RefreshToken
  | .used at_, t => { t with usedAt := some at_ }
  | .revoked at_, t => { t with revokedAt := some at_ }

/-- `SET balance = balances.balance + amount`. -/
def Balance.add (amount : ℤ) (b : Balance) : Balance :=
  { b with balance := b.balance + amount }

/-- The row writes of the application. -/
inductive Write
  | insertUser (u : User)
  | insertAccount (a : Account)
  | insertTransaction (t : Transaction)
  | insertEntry (e : Entry)
  | addBalance (accountId : Uuid) (amount : ℤ)
  | insertRound (r : Round)
  | updateRound (id : Uuid) (u : RoundUpdate)
  | insertBet (b : Bet)
  | updateBet (id : Uuid) (u : BetUpdate)
  | insertChain (c : FairnessChain)
  | insertToken (t : RefreshToken)
  | updateToken (id : Uuid) (u : TokenUpdate)
  | notify (e : RoundDomainEvent)
  | drawNonce
  | drawEntryId
  deriving DecidableEq

/-- The effect of a row write.  A new account gets its balances row from the trigger
`accounts_get_a_balance`. -/
def Db.apply (s : Db) : Write → Db
  | .insertUser u => { s with users := s.users ++ [u] }
  | .insertAccount a =>
    { s with accounts := s.accounts ++ [a], balances := s.balances ++ [⟨a.id, 0⟩] }
  | .insertTransaction t => { s with transactions := s.transactions ++ [t] }
  | .insertEntry e => { s with entries := s.entries ++ [e] }
  | .addBalance id amount =>
    { s with
      balances := modify Balance.accountId s.balances id (Balance.add amount) }
  | .insertRound r => { s with rounds := s.rounds ++ [r] }
  | .updateRound id u => { s with rounds := modify Round.id s.rounds id u.row }
  | .insertBet b => { s with bets := s.bets ++ [b] }
  | .updateBet id u => { s with bets := modify Bet.id s.bets id u.row }
  | .insertChain c => { s with chains := s.chains ++ [c] }
  | .insertToken t => { s with tokens := s.tokens ++ [t] }
  | .updateToken id u => { s with tokens := modify RefreshToken.id s.tokens id u.row }
  | .notify e => { s with delivered := s.delivered ++ [e] }
  | .drawNonce => { s with nonceSeq := s.nonceSeq + 1 }
  | .drawEntryId => { s with entrySeq := s.entrySeq + 1 }

/-- The deferred trigger `entries_must_balance`, for one inserted posting. -/
def Db.assertTransactionBalanced (s : Db) (transactionId : Uuid) : Except AppError Unit :=
  let legs := (s.postings transactionId).length
  let total := ((s.postings transactionId).map Entry.amount).sum
  if legs < 2 then .error (.tooFewPostings transactionId legs)
  else if total ≠ 0 then .error (.unbalancedPostings transactionId total)
  else .ok ()

/-- The deferred trigger, for every posting about to be committed. -/
def Db.deferred (s : Db) : List Write → Except AppError Unit
  | [] => .ok ()
  | .insertEntry e :: rest =>
    match s.assertTransactionBalanced e.transactionId with
    | .ok () => Db.deferred s rest
    | .error e => .error e
  | _ :: rest => Db.deferred s rest

/-- The database that the programs run against. -/
def database : Transactions.Database Db Write AppError where
  apply := Db.apply
  deferred := Db.deferred
  lost := .connectionLost

end Tessera
