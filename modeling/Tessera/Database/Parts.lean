import Tessera.Auth.Service
import Tessera.Database.Regime
import Tessera.Rounds.Engine
import Tessera.Transactions.Within

/-!
# The tables that each part writes

* `Table`, `Write.table` — which table a row write goes to;
* `rowsOn` — the writes that go to one table, and what they alone decide;
* `Touches` — the tables that a part of a transaction writes, with the parts that the services
  are made of.
-/

namespace Tessera

open Transactions Transactions.Program

/-- The tables, those of the ledger taken together. -/
inductive Table
  | users
  | accounts
  | ledger
  | rounds
  | bets
  | chains
  | tokens
  | notifications
  | sequences
  deriving DecidableEq

/-- The table that a row write goes to. -/
def Write.table : Write → Table
  | .insertUser _ => .users
  | .insertAccount _ => .accounts
  | .insertTransaction _ | .insertEntry _ | .addBalance _ _ => .ledger
  | .insertRound _ | .updateRound _ _ => .rounds
  | .insertBet _ | .updateBet _ _ => .bets
  | .insertChain _ => .chains
  | .insertToken _ | .updateToken _ _ => .tokens
  | .notify _ => .notifications
  | .drawNonce | .drawEntryId => .sequences

/-- The two sequences. -/
def Write.isDraw : Write → Bool
  | .drawNonce | .drawEntryId => true
  | _ => false

/-! ## The rows on one table -/

/-- The writes that go to one table. -/
def rowsOn (table : Table) (rows : List Write) : List Write :=
  rows.filter fun w => w.table == table

section
variable {table : Table} {rows rows' : List Write} {s : Db}

@[simp] theorem rowsOn_nil : rowsOn table [] = [] := rfl

/-- The writes to a table of two lists, one after the other. -/
@[simp] theorem rowsOn_append :
    rowsOn table (rows ++ rows') = rowsOn table rows ++ rowsOn table rows' :=
  List.filter_append _ _

/-- A list that never writes a table leaves nothing of it. -/
theorem rowsOn_eq_nil (h : ∀ w ∈ rows, w.table ≠ table) : rowsOn table rows = [] :=
  List.filter_eq_nil_iff.2 fun w hw => by simpa using h w hw

/-- The rounds after a list of writes depend on its writes to `rounds` only. -/
theorem applyAll_rounds (s : Db) (rows : List Write) :
    (database.applyAll s rows).rounds = (database.applyAll s (rowsOn .rounds rows)).rounds := by
  refine database.applyAll_filter Db.rounds (fun s w hw => ?_)
    (fun {s s'} w h => ?_) rows rfl
  · cases w <;> first
      | rfl
      | cases hw
  · change (s.apply w).rounds = (s'.apply w).rounds
    rw [Db.apply_rounds, Db.apply_rounds, h]

/-- The bets after a list of writes depend on its writes to `bets` only. -/
theorem applyAll_bets (s : Db) (rows : List Write) :
    (database.applyAll s rows).bets = (database.applyAll s (rowsOn .bets rows)).bets := by
  refine database.applyAll_filter Db.bets (fun s w hw => ?_)
    (fun {s s'} w h => ?_) rows rfl
  · cases w <;> first
      | rfl
      | cases hw
  · change (s.apply w).bets = (s'.apply w).bets
    rw [Db.apply_bets, Db.apply_bets, h]

/-- The tokens after a list of writes depend on its writes to `refresh_tokens` only. -/
theorem applyAll_tokens (s : Db) (rows : List Write) :
    (database.applyAll s rows).tokens = (database.applyAll s (rowsOn .tokens rows)).tokens := by
  refine database.applyAll_filter Db.tokens (fun s w hw => ?_)
    (fun {s s'} w h => ?_) rows rfl
  · cases w <;> first
      | rfl
      | cases hw
  · change (s.apply w).tokens = (s'.apply w).tokens
    rw [Db.apply_tokens, Db.apply_tokens, h]

end

/-- A part of a transaction that writes these tables and no others. -/
def Touches {α : Type} (tables : List Table) (p : Action α) : Prop :=
  p.Within (fun w => w.table ∈ tables) fun w => w.isDraw = true

section
variable {α : Type} {tables tables' : List Table}

/-- A part that writes some tables writes no others than a larger list of them. -/
theorem Touches.more {p : Action α} (h : Touches tables p) (hsub : tables ⊆ tables') :
    Touches tables' p :=
  Within.mono (fun _ hw => hsub hw) h

/-! ## Statements -/

/-- A check constraint only looks at the row. -/
theorem assertChecks_touches {violated : Option String} :
    Touches tables (assertChecks violated) := by
  cases violated with
  | none => trivial
  | some constraint => trivial

/-- A unique constraint takes a lock and looks at the table. -/
theorem claim_touches {key : LockKey} {taken : Db → Bool} {constraint : String} :
    Touches tables (claim key taken constraint) :=
  Within.bind Within.acquire fun _ => Within.ensure

/-- A foreign key only looks at the table it refers to. -/
theorem assertReference_touches {there : Db → Bool} {constraint : String} :
    Touches tables (assertReference there constraint) :=
  Within.bind Within.select fun _ => Within.ensure

/-- A notification is the only write of `publish`. -/
theorem publish_touches {e : RoundDomainEvent} : Touches [.notifications] (publish e) :=
  Within.put (List.mem_singleton.2 rfl)

/-- An `INSERT` of a user goes to `users`, its constraints included. -/
theorem insertUser_touches {u : User} : Touches [.users] (insertUser u) :=
  Within.bind assertChecks_touches fun _ => Within.bind claim_touches fun _ =>
    Within.bind claim_touches fun _ => Within.put (List.mem_singleton.2 rfl)

/-- An `INSERT` of an account goes to `accounts`, which carries its balances row. -/
theorem insertAccount_touches {a : Account} : Touches [.accounts] (insertAccount a) := by
  have hput : Touches [.accounts] (put (.insertAccount a) : Action Unit) :=
    Within.put (List.mem_singleton.2 rfl)
  refine Within.bind assertChecks_touches fun _ => Within.bind claim_touches fun _ =>
    Within.bind claim_touches fun _ => ?_
  cases a.ownerUserId with
  | none =>
    exact Within.bind claim_touches fun _ => Within.bind claim_touches fun _ =>
      Within.bind hput fun _ => trivial
  | some owner =>
    exact Within.bind claim_touches fun _ => Within.bind claim_touches fun _ =>
      Within.bind hput fun _ => assertReference_touches

/-- An `INSERT` of a bet goes to `bets`; its round and its user are only looked at. -/
theorem insertBet_touches {b : Bet} : Touches [.bets] (insertBet b) :=
  Within.bind assertChecks_touches fun _ => Within.bind claim_touches fun _ =>
    Within.bind claim_touches fun _ => Within.bind (Within.put (List.mem_singleton.2 rfl))
      fun _ => Within.bind assertReference_touches fun _ => assertReference_touches

/-- An `INSERT` of a token goes to `refresh_tokens`. -/
theorem insertToken_touches {t : RefreshToken} : Touches [.tokens] (insertToken t) :=
  Within.bind claim_touches fun _ => Within.bind claim_touches fun _ =>
    Within.bind (Within.put (List.mem_singleton.2 rfl)) fun _ => assertReference_touches

/-- `UPDATE bets … WHERE status = 'ACTIVE'` goes to `bets`, whether it finds the bet or not. -/
theorem updateActiveBet_touches {betId : Uuid} {u : BetUpdate} :
    Touches [.bets] (updateActiveBet betId u) := by
  refine Within.bind Within.selectForLock fun found => ?_
  cases found with
  | none => trivial
  | some row => exact Within.bind assertChecks_touches fun _ =>
      Within.bind (Within.put (List.mem_singleton.2 rfl)) fun _ => trivial

/-- A step of a round's life writes that round. -/
theorem updateRoundWhere_within {roundId : Uuid} {from_ : RoundStatus → Bool}
    {u : RoundUpdate} : (updateRoundWhere roundId from_ u).Within
      (fun w => w = .updateRound roundId u) fun w => w.isDraw = true := by
  refine Within.bind Within.selectForLock fun found => ?_
  cases found with
  | none => trivial
  | some row =>
    refine Within.bind ?_ fun _ => Within.bind (Within.put rfl) fun _ => trivial
    cases (u.row row).violated with
    | none => trivial
    | some constraint => trivial

/-- The guarded `UPDATE rounds` goes to `rounds`, whether it finds the round or not. -/
theorem updateRoundWhere_touches {roundId : Uuid} {from_ : RoundStatus → Bool}
    {u : RoundUpdate} : Touches [.rounds] (updateRoundWhere roundId from_ u) :=
  Within.mono (fun w hw => by simp [hw, Write.table]) updateRoundWhere_within

/-! ## The ledger -/

/-- A balance that moves is a write to the ledger. -/
theorem updateBalance_touches {posting : Posting} :
    Touches [.ledger] (updateBalance posting) := by
  refine Within.bind Within.selectForLock fun found => ?_
  cases found with
  | none => trivial
  | some row => exact Within.bind Within.ensure fun _ => Within.bind Within.check fun _ =>
      Within.put (List.mem_singleton.2 rfl)

/-- The entries and their ids are writes to the ledger. -/
theorem insertEntries_touches {transactionId : Uuid} {postings : List Posting} :
    Touches [.ledger] (insertEntries transactionId postings) := by
  refine Within.bind Within.read fun x => Within.bind (Within.forEach fun p _ => ?_) fun _ =>
    Within.forEach fun p _ => assertReference_touches
  exact Within.bind (Within.draw rfl) fun _ => Within.bind Within.ensure fun _ =>
    Within.put (List.mem_singleton.2 rfl)

/-- A posting writes to the ledger only. -/
theorem postInTransaction_touches {input : PostInput} :
    Touches [.ledger] (postInTransaction input) := by
  refine Within.bind Within.read fun x => Within.bind ?_ fun _ =>
    Within.bind insertEntries_touches fun _ =>
      Within.bind (Within.forEach fun p _ => updateBalance_touches) fun _ => trivial
  exact Within.bind claim_touches fun _ => Within.put (List.mem_singleton.2 rfl)

/-- So does a posting inside an open transaction. -/
theorem postEnlisted_touches {input : PostInput} : Touches [.ledger] (postEnlisted input) :=
  Within.bind Within.check fun _ => postInTransaction_touches

/-- A balance that is locked and read is not written. -/
theorem lockBalanceForUpdate_touches {accountId : Uuid} :
    Touches tables (lockBalanceForUpdate accountId) := by
  refine Within.bind Within.selectForLock fun found => ?_
  cases found with
  | some row => exact Within.check
  | none =>
    refine Within.bind Within.selectForLock fun found => ?_
    cases found with
    | none => trivial
    | some row => trivial

/-- The check of the funds writes nothing. -/
theorem lockAndAssertSufficient_touches {accountId : Uuid} {amount : Money} :
    Touches tables (lockAndAssertSufficient accountId amount) := by
  refine Within.bind lockBalanceForUpdate_touches fun balance => ?_
  split <;> trivial

/-- The lookup of a wallet writes nothing. -/
theorem getWalletAccountId_touches {userId : Uuid} :
    Touches tables (getWalletAccountId userId) := by
  refine Within.bind Within.select fun found => ?_
  cases found with
  | none => trivial
  | some account => trivial

/-- The lookup of a balance writes nothing. -/
theorem getBalance_touches {accountId : Uuid} : Touches tables (getBalance accountId) :=
  Within.bind Within.select fun _ => Within.check

/-! ## The bets of a round -/

/-- The tables written when a bet is closed. -/
abbrev closingTables : List Table := [.bets, .ledger, .notifications]

/-- The outcome of a bet is told by notifications only. -/
theorem publishBetOutcome_touches {betId userId walletId : Uuid} :
    Touches [.notifications] (publishBetOutcome betId userId walletId) := by
  refine Within.bind Within.select fun found => ?_
  cases found with
  | none => trivial
  | some row => exact Within.bind getBalance_touches fun _ =>
      Within.bind publish_touches fun _ => publish_touches

/-- A lost bet: its row, its posting, and its notifications. -/
theorem settleLostBet_touches {bet : Bet} : Touches closingTables (settleLostBet bet) :=
  Within.bind Within.read fun _ =>
    Within.bind (updateActiveBet_touches.more (by simp)) fun _ =>
      Within.bind (postEnlisted_touches.more (by simp)) fun _ =>
        Within.bind getWalletAccountId_touches fun _ => publishBetOutcome_touches.more (by simp)

/-- A won bet: its row, its posting, and its notifications. -/
theorem settleWonBet_touches {bet : Bet} {oddsBp : ℤ} :
    Touches closingTables (settleWonBet bet oddsBp) :=
  Within.bind Within.check fun _ => Within.bind Within.check fun _ =>
    Within.bind Within.check fun _ => Within.bind Within.read fun _ =>
      Within.bind (updateActiveBet_touches.more (by simp)) fun _ =>
        Within.bind getWalletAccountId_touches fun _ =>
          Within.bind (postEnlisted_touches.more (by simp)) fun _ =>
            Within.bind Within.select fun _ => Within.bind Within.select fun _ =>
              Within.bind (publish_touches.more (by simp)) fun _ =>
                publishBetOutcome_touches.more (by simp)

/-- Settling one bet, won or lost, writes what closing a bet writes. -/
theorem settleBet_touches {round : Round} {bet : Bet} :
    Touches closingTables (settleBet round bet) := by
  unfold settleBet
  cases round.game with
  | CRASH => exact settleLostBet_touches
  | ROULETTE =>
    refine Within.bind Within.check fun won => ?_
    cases won with
    | none => exact settleLostBet_touches
    | some oddsBp => exact settleWonBet_touches

/-- A refund: its row, its posting, and its notifications. -/
theorem refundBet_touches {bet : Bet} : Touches closingTables (refundBet bet) :=
  Within.bind Within.read fun _ =>
    Within.bind (updateActiveBet_touches.more (by simp)) fun _ =>
      Within.bind getWalletAccountId_touches fun _ =>
        Within.bind (postEnlisted_touches.more (by simp)) fun _ =>
          publishBetOutcome_touches.more (by simp)

/-- The bets that are locked are not written yet. -/
theorem lockActiveBets_touches {roundId : Uuid} : Touches tables (lockActiveBets roundId) :=
  Within.bind Within.read fun _ => Within.bind Within.select fun _ => Within.lockEach

/-! ## Transactions -/

/-- A new bet: its row, its posting, and its notifications. -/
theorem recordBet_touches {input : PlaceBetInput} {stake : Money} {game : GameKind}
    {priced : PricedSelection} {walletId : Uuid} :
    Touches closingTables (recordBet input stake game priced walletId) :=
  Within.bind Within.read fun _ => Within.bind Within.ensure fun _ =>
    Within.bind (insertBet_touches.more (by simp)) fun _ =>
      Within.bind (postEnlisted_touches.more (by simp)) fun _ =>
        Within.bind Within.select fun _ => Within.bind getBalance_touches fun _ =>
          Within.bind (publish_touches.more (by simp)) fun _ =>
            Within.bind (publish_touches.more (by simp)) fun _ => trivial

/-- `placeBet` writes no round, no token and no user. -/
theorem placeBetTransaction_touches {input : PlaceBetInput} {stake : Money} :
    Touches closingTables (placeBetTransaction input stake) := by
  refine Within.bind Within.select fun replay => ?_
  cases replay with
  | some replay => trivial
  | none =>
    refine Within.bind Within.selectForLock fun found => ?_
    cases found with
    | none => trivial
    | some round =>
      dsimp only
      split
      · trivial
      · exact Within.bind Within.check fun _ => Within.bind getWalletAccountId_touches fun _ =>
          Within.bind lockAndAssertSufficient_touches fun _ => recordBet_touches

/-- A bet that is cashed out: its row, its posting, and its notifications. -/
theorem payCashOut_touches {input : CashOutInput} {bet : Bet} {game : GameKind} {now : Time}
    {multiplierBp : ℤ} : Touches closingTables (payCashOut input bet game now multiplierBp) := by
  refine Within.bind Within.check fun _ => Within.bind Within.check fun _ =>
    Within.bind Within.check fun _ =>
      Within.bind (updateActiveBet_touches.more (by simp)) fun found => ?_
  cases found with
  | none => trivial
  | some updated =>
    exact Within.bind getWalletAccountId_touches fun _ =>
      Within.bind (postEnlisted_touches.more (by simp)) fun _ =>
        Within.bind Within.select fun _ => Within.bind getBalance_touches fun _ =>
          Within.bind (publish_touches.more (by simp)) fun _ =>
            Within.bind (publish_touches.more (by simp)) fun _ =>
              Within.bind (publish_touches.more (by simp)) fun _ => trivial

/-- `cashOut` writes no round, no token and no user either, on any of its branches. -/
theorem cashOutActive_touches {input : CashOutInput} {bet : Bet} :
    Touches closingTables (cashOutActive input bet) := by
  refine Within.bind Within.select fun found => ?_
  cases found with
  | none => trivial
  | some round =>
    dsimp only
    split
    · split
      · refine Within.bind Within.read fun x => ?_
        split
        · trivial
        · exact payCashOut_touches
      · trivial
    · trivial

/-- A new family of tokens is one token. -/
theorem issueRefreshToken_touches {config : Config} {crypto : Crypto} {userId : Uuid} :
    Touches [.tokens] (issueRefreshToken config crypto userId) :=
  Within.bind Within.read fun _ => Within.bind Within.read fun _ => Within.bind Within.read
    fun _ => Within.bind insertToken_touches fun _ => trivial

/-- A wallet is an account. -/
theorem createWallet_touches {userId : Uuid} : Touches [.accounts] (createWallet userId) :=
  Within.bind Within.read fun _ => Within.bind insertAccount_touches fun _ => trivial

/-- The answer of the auth service is computed from what has been read. -/
theorem buildResult_touches {crypto : Crypto} {config : Config} {user : AuthenticatedUser}
    {refreshToken : String} : Touches tables (buildResult config crypto user refreshToken) :=
  Within.bind Within.read fun _ => trivial

-- the elaborator would otherwise run the checks on the name of the user
attribute [local irreducible] Within in

/-- Registering writes a user, a wallet, the grant and a token. -/
theorem registerTransaction_touches {config : Config} {crypto : Crypto} {dto : RegisterDto}
    {passwordHash : String} {grant : Money} :
    Touches [.users, .accounts, .ledger, .tokens]
      (registerTransaction config crypto dto passwordHash grant) := by
  refine Within.bind Within.read fun x => ?_
  refine Within.bind (insertUser_touches.more (by simp)) fun _ => ?_
  refine Within.bind (createWallet_touches.more (by simp)) fun _ => ?_
  refine Within.bind (postEnlisted_touches.more (by simp)) fun _ => ?_
  exact Within.bind (issueRefreshToken_touches.more (by simp)) fun _ => buildResult_touches

/-! ## Calls -/

/-- The tables that a call writes, one transaction after the other. -/
abbrev WritesTo (tables : List Table) (p : Action α) : Prop :=
  p.Writes (fun _ => []) (fun w => w.table ∈ tables) (fun w => w.isDraw = true) []

/-- A write to one of some tables is a write to no other. -/
theorem tables_ne {w : Write} {table : Table} (hw : w.table ∈ tables) (ht : table ∉ tables) :
    w.table ≠ table :=
  fun heq => ht (heq ▸ hw)

/-- Every write that `placeBet` commits goes to a table of closing a bet. -/
theorem placeBet_writes {config : Config} {input : PlaceBetInput} :
    WritesTo closingTables (placeBet config input) := by
  unfold placeBet
  split
  · trivial
  · refine Writes.bind trivial fun stake =>
      Writes.tryCatch (Within.transaction placeBetTransaction_touches) fun e => ?_
    unfold placeBetRecover
    split
    · refine Writes.bind (fun _ => trivial) fun found => ?_
      cases found with
      | none => trivial
      | some existing => trivial
    · trivial

/-- Every write that `cashOut` commits goes to one of the same tables. -/
theorem cashOut_writes {input : CashOutInput} : WritesTo closingTables (cashOut input) := by
  refine Within.transaction (Within.bind Within.selectForLock fun found => ?_)
  cases found with
  | none => trivial
  | some bet =>
    dsimp only
    cases bet.status with
    | ACTIVE => exact cashOutActive_touches
    | _ => trivial

/-- The writes of a transaction that closes a round: that round, its bets, and what follows. -/
def ClosesRound (roundId : Uuid) (w : Write) : Prop :=
  w.table ∈ closingTables ∨ ∃ u, w = .updateRound roundId u

/-- Closing a round writes the round and what closing its bets writes. -/
theorem ClosesRound.table_mem {roundId : Uuid} {w : Write} (h : ClosesRound roundId w) :
    w.table ∈ Table.rounds :: closingTables := by
  obtain h | ⟨u, rfl⟩ := h
  · exact List.mem_cons_of_mem _ h
  · exact List.mem_cons_self

/-- A part that closes bets leaves the rounds alone, so it is a part of closing any of them. -/
theorem Touches.closing {roundId : Uuid} {p : Action α} (h : Touches closingTables p) :
    p.Within (ClosesRound roundId) fun w => w.isDraw = true :=
  Within.mono (fun _ => Or.inl) h

/-- The update of the round itself is a part of closing it. -/
theorem updateRoundWhere_closing {roundId : Uuid} {from_ : RoundStatus → Bool}
    {u : RoundUpdate} : (updateRoundWhere roundId from_ u).Within (ClosesRound roundId)
      fun w => w.isDraw = true :=
  Within.mono (fun _ hw => .inr ⟨_, hw⟩) updateRoundWhere_within

/-- `settleRound` updates its own round at most, apart from closing bets. -/
theorem settleRound_writes {roundId : Uuid} : (settleRound roundId).Writes (fun _ => [])
    (ClosesRound roundId) (fun w => w.isDraw = true) [] := by
  refine Within.transaction (Within.bind Within.selectForLock fun found => ?_)
  cases found with
  | none => trivial
  | some round =>
    dsimp only
    split
    · trivial
    · exact Within.bind lockActiveBets_touches.closing fun _ =>
        Within.bind (Within.forEach fun _ _ => settleBet_touches.closing) fun _ =>
          Within.bind Within.read fun _ => Within.bind updateRoundWhere_closing fun _ =>
            (publish_touches.more (by simp)).closing

/-- `voidRound` updates its own round at most, apart from closing bets. -/
theorem voidRound_writes {roundId : Uuid} : (voidRound roundId).Writes (fun _ => [])
    (ClosesRound roundId) (fun w => w.isDraw = true) [] := by
  refine Within.transaction (Within.bind Within.selectForLock fun found => ?_)
  cases found with
  | none => trivial
  | some round =>
    dsimp only
    split
    · trivial
    · exact Within.bind lockActiveBets_touches.closing fun _ =>
        Within.bind (Within.forEach fun _ _ => refundBet_touches.closing) fun _ =>
          Within.bind Within.read fun _ => Within.bind updateRoundWhere_closing fun _ =>
            (publish_touches.more (by simp)).closing

attribute [local irreducible] Writes Within in

/-- The transaction of `register` commits only what registering writes. -/
theorem registerBlock_writes {config : Config} {crypto : Crypto} {dto : RegisterDto}
    {passwordHash : String} {grant : Money} :
    WritesTo [.users, .accounts, .ledger, .tokens]
      (transaction (registerTransaction config crypto dto passwordHash grant)) :=
  Within.transaction registerTransaction_touches

attribute [local irreducible] Writes in

/-- So does the call, whatever it answers. -/
theorem register_writes {config : Config} {crypto : Crypto} {dto : RegisterDto} :
    WritesTo [.users, .accounts, .ledger, .tokens] (register config crypto dto) := by
  refine Writes.bind Writes.select fun found => ?_
  cases found with
  | some user => exact Writes.done
  | none =>
    refine Writes.bind_read fun x => Writes.bind Writes.done fun grant =>
      Writes.tryCatch registerBlock_writes fun e => ?_
    split <;> exact Writes.done

end

end Tessera
