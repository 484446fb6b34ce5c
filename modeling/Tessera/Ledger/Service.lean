import Tessera.Database.Statements

/-!
# The ledger service

Source: `src/src/ledger/ledger.service.ts`, `ledger.types.ts`.
-/

namespace Tessera

open Transactions Transactions.Program

/-- Source: `ledger.types.ts` `Posting`. -/
structure Posting where
  accountId : Uuid
  amount : Money
  deriving DecidableEq

/-- Source: `ledger.types.ts` `PostInput`. -/
structure PostInput where
  kind : TransactionKind
  postings : List Posting
  reference : Option Reference
  deriving DecidableEq

/-- Source: `ledger.types.ts` `PostedTransaction`. -/
structure PostedTransaction where
  id : Uuid
  kind : TransactionKind
  postings : List Posting
  deriving DecidableEq

/-- Source: `LedgerService.assertBalanced`. -/
def assertBalanced (input : PostInput) : Except AppError Unit :=
  let sum := Js.sum (input.postings.map fun p => p.amount.minor)
  if input.postings.length < 2 then .error (.unbalancedTransaction 0)
  else if sum ≠ 0 then .error (.unbalancedTransaction sum)
  else if input.postings.any fun p => p.amount.minor == 0 then
    .error (.unbalancedTransaction 0)
  else .ok ()

/-- `[...postings].sort((a, b) => a.accountId.localeCompare(b.accountId))`, a stable sort. -/
def ordered (postings : List Posting) : List Posting :=
  postings.insertionSort fun a b => a.accountId ≤ b.accountId

/-- `INSERT INTO entries` of all postings at once: the rows in order, then the foreign keys. -/
def insertEntries (transactionId : Uuid) (postings : List Posting) : Action Unit := do
  let x ← read
  forEach (fun p => insertEntryRow transactionId p.accountId p.amount x.now) postings
  forEach (fun p => assertReference (fun s => (s.account p.accountId).isSome)
    "entries_account_id_fkey") postings

/-- Which accounts the trigger `assert_balance_non_negative` protects. -/
def AccountKind.neverNegative : AccountKind → Bool
  | .WALLET | .ESCROW => true
  | _ => false

/-- The trigger `balances_non_negative`, for an account of a given kind. -/
def assertBalanceNonNegative (accountId : Uuid) (kind : Option AccountKind) (balance : ℤ) :
    Except AppError Unit :=
  match kind with
  | none => .ok ()
  | some kind =>
    if kind.neverNegative && decide (balance < 0) then
      .error (.negativeBalance accountId kind balance)
    else .ok ()

/-- `UPDATE balances SET balance = balances.balance + amount WHERE account_id = …`. -/
def updateBalance (posting : Posting) : Action Unit := do
  let found ← selectForLock .exclusive (fun r : Balance × Option AccountKind =>
      LockKey.balance r.1.accountId)
    fun s => (s.balance posting.accountId).map fun b =>
      (b, (s.account posting.accountId).map Account.kind)
  match found with
  | none => throw (.accountNotFound (.inl posting.accountId))
  | some (row, kind) =>
    let balance := row.balance + posting.amount.minor
    ensure (inBigint balance) .bigintOutOfRange
    check (assertBalanceNonNegative posting.accountId kind balance)
    put (.addBalance posting.accountId posting.amount.minor)

/-- Source: `LedgerService.postInTransaction`. -/
def postInTransaction (input : PostInput) : Action PostedTransaction := do
  let x ← read
  insertTransaction ⟨x.uuid, input.kind, input.reference⟩
  insertEntries x.uuid input.postings
  forEach updateBalance (ordered input.postings)
  pure ⟨x.uuid, input.kind, input.postings⟩

/-- Source: `LedgerService.post` with an open transaction. -/
def postEnlisted (input : PostInput) : Action PostedTransaction := do
  check (assertBalanced input)
  postInTransaction input

/-- Source: `LedgerService.post` without an executor, in a transaction of its own. -/
def post (input : PostInput) : Action PostedTransaction := do
  check (assertBalanced input)
  transaction (postInTransaction input)

/-- Source: `LedgerService.lockBalanceForUpdate`. -/
def lockBalanceForUpdate (accountId : Uuid) : Action Money := do
  match ← selectForLock .exclusive (fun b : Balance => LockKey.balance b.accountId)
      fun s => s.balance accountId with
  | some row => check (readBigint row.balance)
  | none =>
    match ← selectForLock .exclusive (fun a : Account => LockKey.account a.id)
        fun s => s.account accountId with
    | some _ => pure Money.zero
    | none => throw (.accountNotFound (.inl accountId))

/-- Source: `LedgerService.lockAndAssertSufficient`. -/
def lockAndAssertSufficient (accountId : Uuid) (amount : Money) : Action Money := do
  let balance ← lockBalanceForUpdate accountId
  if balance.minor < amount.minor then
    throw (.insufficientFunds balance.minor amount.minor)
  else pure balance

/-- Source: `LedgerService.getWalletAccountId`. -/
def getWalletAccountId (userId : Uuid) : Action Uuid := do
  match ← select fun s => s.accountByKey (walletKey userId) with
  | none => throw (.accountNotFound (.inr (walletKey userId)))
  | some account => pure account.id

/-- Source: `LedgerService.createWallet`. -/
def createWallet (userId : Uuid) : Action Uuid := do
  let x ← read
  insertAccount ⟨x.uuid, .WALLET, some userId, walletKey userId⟩
  pure x.uuid

/-- Source: `LedgerService.getBalance`. -/
def getBalance (accountId : Uuid) : Action Money := do
  let balance ← select fun s => s.balanceOf accountId
  check (readBigint balance)

end Tessera
