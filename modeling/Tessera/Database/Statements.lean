import Tessera.Database.Schema

/-!
# Statements of the application

What the services send to Postgres, statement by statement: the row locks that reads and
writes take, the unique indexes an `INSERT` waits on, and the constraints it is held to.

* `LockKey` — the rows and the unique-index entries that sessions lock;
* `Inputs`, `Config`, `Crypto` — what a process reads from outside the database;
* `Action` — a program of the application;
* `insertUser`, …, `insertToken` — one `INSERT` each, with its constraints.
-/

namespace Tessera

open Transactions Transactions.Program

/-- What a session can hold a lock on: a row, or an entry of a unique index. -/
inductive LockKey
  | user (id : Uuid)
  | userEmail (email : String)
  | account (id : Uuid)
  | accountKey (key : AccountKey)
  | accountOwner (userId : Uuid)
  | accountSystemKind (kind : AccountKind)
  | balance (accountId : Uuid)
  | transaction (id : Uuid)
  | round (id : Uuid)
  | roundNonce (nonce : ℕ)
  | liveRound (game : GameKind)
  | chainPosition (chainId : Uuid) (index : ℤ)
  | bet (id : Uuid)
  | betIdempotency (userId : Uuid) (key : String)
  | chain (id : Uuid)
  | chainFirstNonce (nonce : ℕ)
  | token (id : Uuid)
  | tokenHash (hash : String)
  deriving DecidableEq

/-- An order in which an unordered `SELECT` may return its rows. -/
structure RowOrder where
  permute : List Bet → List Bet
  perm : ∀ rows, (permute rows).Perm rows

/-- What a statement may read from outside the database: a clock, a random UUID, random
bytes, and the order in which a scan returns rows. -/
structure Inputs where
  now : Time
  uuid : Uuid
  uuid_version4 : uuid.isVersion4 = true
  randomBytes : String
  order : RowOrder

/-- The validated environment.  Source: `config/env.validation.ts`. -/
structure Config where
  signupGrantMinor : ℤ := 100000
  minStakeMinor : ℤ := 100
  maxStakeMinor : ℤ := 1000000
  roundBettingWindowMs : ℤ := 15000
  roundIntermissionMs : ℤ := 9000
  rouletteSpinMs : ℤ := 6000
  roundStaleGraceMs : ℤ := 5000
  fairnessChainLength : ℕ := 10000
  jwtAccessTtl : ℤ := 900
  jwtRefreshTtl : ℤ := 2592000
  signupGrant_pos : 0 < signupGrantMinor := by decide
  minStake_pos : 0 < minStakeMinor := by decide
  minStake_le : minStakeMinor ≤ maxStakeMinor := by decide
  chainLength_ge : 10 ≤ fairnessChainLength := by decide
  staleGrace_ge : 500 ≤ roundStaleGraceMs := by decide

/-- The functions that come from elsewhere: the cryptographic ones, from `node:crypto`, `argon2` and
the JWT library, and `lower` in the locale of the database. -/
structure Crypto where
  sha256 : String → String
  /-- `createHmac('sha256', key).update(message).digest('hex')`. -/
  hmacSha256 : (key message : String) → String
  /-- `argon2.hash`, with the salt it draws. -/
  argon2Hash : (password salt : String) → String
  argon2Verify : (hash password : String) → Bool
  /-- `jwt.sign` of the payload `{ sub, jti, fam }`, with the time of signing and the
  lifetime. -/
  signRefreshToken : (sub jti fam : Uuid) → Time → ℤ → String
  /-- Whether `jwt.verify` accepts a refresh token at a given time. -/
  verifyRefreshToken : String → Time → Bool
  signAccessToken : (sub : Uuid) → (email role : String) → Time → ℤ → String
  /-- `lower(text)`, by which `citext` compares. -/
  lower : String → String

/-- A text as a value of `citext`. -/
def Crypto.citext (crypto : Crypto) (text : String) : Citext := ⟨text, crypto.lower text⟩

/-- A program of the application. -/
abbrev Action := Program Db LockKey Write Inputs AppError

/-- A statement outside any transaction commits by itself. -/
abbrev autocommit {α : Type} (statement : Action α) : Action α := transaction statement

/-- Fail on the first violated CHECK constraint. -/
def assertChecks (violated : Option String) : Action Unit :=
  match violated with
  | none => pure ()
  | some constraint => throw (.checkViolation constraint)

/-- Enter a unique index: wait for whoever is inserting the same key, then fail if a row has
it. -/
def claim (key : LockKey) (taken : Db → Bool) (constraint : String) : Action Unit := do
  let present ← acquire key .exclusive taken
  ensure (!present) (.uniqueViolation constraint)

/-- A foreign key: the referenced row must be there. -/
def assertReference (there : Db → Bool) (constraint : String) : Action Unit := do
  let found ← select there
  ensure found (.foreignKeyViolation constraint)

/-- Source: the `BIGINT` parser of `database.module.ts`. -/
def readBigint (value : ℤ) : Except AppError Money :=
  if h : Js.isSafeInteger value = true then .ok ⟨value, h⟩ else .error (.unsafeBigint value)

/-! ## Inserts -/

/-- `INSERT INTO users`. -/
def insertUser (u : User) : Action Unit := do
  assertChecks u.violated
  claim (.user u.id) (fun s => (s.user u.id).isSome) "users_pkey"
  claim (.userEmail u.email.lower)
    (fun s => s.users.any fun v => v.email.lower == u.email.lower) "users_email_key"
  put (.insertUser u)

/-- `INSERT INTO accounts`, with the trigger that inserts the balances row. -/
def insertAccount (a : Account) : Action Unit := do
  assertChecks a.violated
  claim (.account a.id) (fun s => (s.account a.id).isSome) "accounts_pkey"
  claim (.accountKey a.key) (fun s => (s.accountByKey a.key).isSome) "accounts_key_key"
  match a.ownerUserId with
  | some owner =>
    claim (.accountOwner owner)
      (fun s => s.accounts.any fun b => b.kind == .WALLET && b.ownerUserId == some owner)
      "accounts_one_wallet_per_user"
  | none =>
    claim (.accountSystemKind a.kind) (fun s => s.accounts.any fun b => b.kind == a.kind)
      "accounts_singleton_system"
  claim (.balance a.id) (fun s => (s.balance a.id).isSome) "balances_pkey"
  put (.insertAccount a)
  match a.ownerUserId with
  | some owner =>
    assertReference (fun s => (s.user owner).isSome) "accounts_owner_user_id_fkey"
  | none => pure ()

/-- `INSERT INTO transactions`. -/
def insertTransaction (t : Transaction) : Action Unit := do
  claim (.transaction t.id) (fun s => s.transactions.any fun u => u.id == t.id)
    "transactions_pkey"
  put (.insertTransaction t)

/-- One row of `INSERT INTO entries`, with the id drawn for it. -/
def insertEntryRow (transactionId accountId : Uuid) (amount : Money) (createdAt : Time) :
    Action Unit := do
  let id ← draw .drawEntryId Db.entrySeq
  ensure (amount.minor != 0) (.checkViolation "entries_amount_check")
  put (.insertEntry ⟨id, transactionId, accountId, amount.minor, createdAt⟩)

/-- `INSERT INTO bets`. -/
def insertBet (b : Bet) : Action Unit := do
  assertChecks b.violated
  claim (.bet b.id) (fun s => (s.bet b.id).isSome) "bets_pkey"
  claim (.betIdempotency b.userId b.idempotencyKey)
    (fun s => s.bets.any fun c => c.userId == b.userId && c.idempotencyKey == b.idempotencyKey)
    "bets_user_idempotency"
  put (.insertBet b)
  assertReference (fun s => (s.user b.userId).isSome) "bets_user_id_fkey"
  assertReference (fun s => (s.round b.roundId).isSome) "bets_round_id_fkey"

/-- `INSERT INTO rounds`. -/
def insertRound (r : Round) : Action Unit := do
  assertChecks r.violated
  claim (.round r.id) (fun s => (s.round r.id).isSome) "rounds_pkey"
  claim (.roundNonce r.nonce) (fun s => s.rounds.any fun q => q.nonce == r.nonce)
    "rounds_nonce_key"
  match r.chainId with
  | some chainId =>
    claim (.chainPosition chainId (r.chainIndex.getD 0))
      (fun s => s.rounds.any fun q => q.chainId == some chainId && q.chainIndex == r.chainIndex)
      "rounds_chain_position"
  | none => pure ()
  claim (.liveRound r.game)
    (fun s => r.status.isLive && s.rounds.any fun q => q.game == r.game && q.status.isLive)
    "rounds_single_live_round_per_game"
  put (.insertRound r)
  match r.chainId with
  | some chainId =>
    assertReference (fun s => (s.chain chainId).isSome) "rounds_chain_id_fkey"
  | none => pure ()

/-- `INSERT INTO fairness_chains`. -/
def insertChain (c : FairnessChain) : Action Unit := do
  ensure (decide (0 < c.length)) (.checkViolation "fairness_chains_length_check")
  claim (.chain c.id) (fun s => (s.chain c.id).isSome) "fairness_chains_pkey"
  claim (.chainFirstNonce c.firstNonce)
    (fun s => s.chains.any fun d => d.firstNonce == c.firstNonce)
    "fairness_chains_first_nonce_unique"
  put (.insertChain c)

/-- `INSERT INTO refresh_tokens`. -/
def insertToken (t : RefreshToken) : Action Unit := do
  claim (.token t.id) (fun s => (s.token t.id).isSome) "refresh_tokens_pkey"
  claim (.tokenHash t.tokenHash) (fun s => s.tokens.any fun u => u.tokenHash == t.tokenHash)
    "refresh_tokens_token_hash_key"
  put (.insertToken t)
  assertReference (fun s => (s.user t.userId).isSome) "refresh_tokens_user_id_fkey"

end Tessera
