import Tessera.Ledger.Journal
import Tessera.Relational.Dml

/-!
# The ledger's tables without the application

Whoever has a connection may run any statement on the users, the accounts, the journal, its postings
and the balances; there is only the schema to say no.

* `Tables`, `LedgerStatement`, `Tables.execute` — the five tables and a statement about one row;
* `Tables.transaction` — a transaction, with the trigger that is deferred to its end;
* `Tables.Sound` — what the constraints keep;
* `raw_journal` — the journal is balanced and append-only, but for journal rows without postings;
* `raw_balances` — no wallet is in debit, unless an account in debit was turned into one;
* `transaction_statements` — what the application writes, as such statements.

Source: `migrations/1757900000000_initial-ledger.sql`.
-/

namespace Tessera

open Relational

/-- A row of `transactions`, any texts in it. -/
structure JournalRow where
  id : Uuid
  kind : String
  referenceType : Option String
  referenceId : Option Uuid
  deriving DecidableEq

/-- A row of `entries`, any `bigint` as its id. -/
structure PostingRow where
  id : ℤ
  transactionId : Uuid
  accountId : Uuid
  amount : ℤ
  deriving DecidableEq

/-- The tables of the initial migration. -/
structure Tables where
  users : List User := []
  accounts : List Account := []
  transactions : List JournalRow := []
  entries : List PostingRow := []
  balances : List Balance := []
  deriving DecidableEq

/-- The tables as the migration leaves them. -/
def Tables.migrated : Tables where
  accounts := Tessera.migrated.accounts
  balances := Tessera.migrated.balances

/-- Fail unless a condition holds. -/
def demand (holds : Bool) (e : AppError) : Except AppError Unit :=
  if holds then .ok () else .error e

/-- The postings of one journal row. -/
def Tables.postings (t : Tables) (transactionId : Uuid) : List PostingRow :=
  t.entries.filter fun p => decide (p.transactionId = transactionId)

/-! ## Triggers -/

/-- `assert_balance_non_negative`.  An account that is not there has no kind. -/
def Tables.assertBalanceNonNegative (t : Tables) (b : Balance) : Except AppError Unit :=
  match lookup Account.id t.accounts b.accountId with
  | none => .ok ()
  | some a =>
    demand (!(a.kind.neverNegative && decide (b.balance < 0)))
      (.negativeBalance b.accountId a.kind b.balance)

/-- `forbid_mutation`, before an `UPDATE` or a `DELETE`. -/
def forbidMutation {ρ : Type} (table : String) (old new : Option ρ) : Except AppError Unit :=
  demand old.isNone (.appendOnly table (if new.isSome then "UPDATE" else "DELETE"))

/-- `assert_transaction_balanced`, for one inserted posting. -/
def Tables.assertTransactionBalanced (t : Tables) (transactionId : Uuid) :
    Except AppError Unit := do
  let total := ((t.postings transactionId).map PostingRow.amount).sum
  let legs := (t.postings transactionId).length
  demand (inBigint total) .bigintOutOfRange
  demand (decide (2 ≤ legs)) (.tooFewPostings transactionId legs)
  demand (decide (total = 0)) (.unbalancedPostings transactionId total)

/-! ## The tables -/

/-- The table `users`. -/
def usersRules : Rules Tables Uuid User AppError where
  key := User.id
  rows := Tables.users
  put t rows := { t with users := rows }
  before _ _ _ := .ok ()
  check u :=
    match u.violated with
    | none => .ok ()
    | some constraint => .error (.checkViolation constraint)
  unique u v := do
    demand (u.id != v.id) (.uniqueViolation "users_pkey")
    demand (u.email.lower != v.email.lower) (.uniqueViolation "users_email_key")
  references _ _ := .ok ()
  referenced t id :=
    demand (t.accounts.all fun a => a.ownerUserId != some id)
      (.foreignKeyViolation "accounts_owner_user_id_fkey")
  after t _ := .ok t

/-- The table `balances`. -/
def balancesRules : Rules Tables Uuid Balance AppError where
  key := Balance.accountId
  rows := Tables.balances
  put t rows := { t with balances := rows }
  before t _ new :=
    match new with
    | none => .ok ()
    | some b => t.assertBalanceNonNegative b
  check b := demand (inBigint b.balance) .bigintOutOfRange
  unique b c := demand (b.accountId != c.accountId) (.uniqueViolation "balances_pkey")
  references t b :=
    demand (t.accounts.any fun a => a.id == b.accountId)
      (.foreignKeyViolation "balances_account_id_fkey")
  referenced _ _ := .ok ()
  after t _ := .ok t

/-- The table `accounts`, with the trigger `accounts_get_a_balance`. -/
def accountsRules : Rules Tables Uuid Account AppError where
  key := Account.id
  rows := Tables.accounts
  put t rows := { t with accounts := rows }
  before _ _ _ := .ok ()
  check a :=
    match a.violated with
    | none => .ok ()
    | some constraint => .error (.checkViolation constraint)
  unique a c := do
    demand (a.id != c.id) (.uniqueViolation "accounts_pkey")
    demand (a.key.text != c.key.text) (.uniqueViolation "accounts_key_key")
    demand (!(a.kind == .WALLET && c.kind == .WALLET && a.ownerUserId == c.ownerUserId))
      (.uniqueViolation "accounts_one_wallet_per_user")
    demand (!(a.kind != .WALLET && c.kind != .WALLET && a.kind == c.kind))
      (.uniqueViolation "accounts_singleton_system")
  references t a :=
    demand (a.ownerUserId.all fun owner => t.users.any fun u => u.id == owner)
      (.foreignKeyViolation "accounts_owner_user_id_fkey")
  referenced t id := do
    demand (t.balances.all fun b => b.accountId != id)
      (.foreignKeyViolation "balances_account_id_fkey")
    demand (t.entries.all fun p => p.accountId != id)
      (.foreignKeyViolation "entries_account_id_fkey")
  after t a := balancesRules.change t (.insert ⟨a.id, 0⟩)

/-- The table `transactions`. -/
def transactionsRules : Rules Tables Uuid JournalRow AppError where
  key := JournalRow.id
  rows := Tables.transactions
  put t rows := { t with transactions := rows }
  before _ := forbidMutation "transactions"
  check j :=
    demand (j.referenceType.isSome == j.referenceId.isSome)
      (.checkViolation "transactions_reference_paired")
  unique j k := demand (j.id != k.id) (.uniqueViolation "transactions_pkey")
  references _ _ := .ok ()
  referenced t id :=
    demand (t.entries.all fun p => p.transactionId != id)
      (.foreignKeyViolation "entries_transaction_id_fkey")
  after t _ := .ok t

/-- The table `entries`. -/
def entriesRules : Rules Tables ℤ PostingRow AppError where
  key := PostingRow.id
  rows := Tables.entries
  put t rows := { t with entries := rows }
  before _ := forbidMutation "entries"
  check p := do
    demand (inBigint p.id && inBigint p.amount) .bigintOutOfRange
    demand (p.amount != 0) (.checkViolation "entries_amount_check")
  unique p q := demand (p.id != q.id) (.uniqueViolation "entries_pkey")
  references t p := do
    demand (t.accounts.any fun a => a.id == p.accountId)
      (.foreignKeyViolation "entries_account_id_fkey")
    demand (t.transactions.any fun j => j.id == p.transactionId)
      (.foreignKeyViolation "entries_transaction_id_fkey")
  referenced _ _ := .ok ()
  after t _ := .ok t

/-! ## Statements and transactions -/

/-- A statement that concerns one row. -/
inductive LedgerStatement
  | users (c : Change Uuid User)
  | accounts (c : Change Uuid Account)
  | transactions (c : Change Uuid JournalRow)
  | entries (c : Change ℤ PostingRow)
  | balances (c : Change Uuid Balance)
  deriving DecidableEq

def Tables.execute (t : Tables) : LedgerStatement → Except AppError Tables
  | .users c => usersRules.change t c
  | .accounts c => accountsRules.change t c
  | .transactions c => transactionsRules.change t c
  | .entries c => entriesRules.change t c
  | .balances c => balancesRules.change t c

/-- The statements of a transaction, one after the other. -/
def Tables.executeAll (t : Tables) : List LedgerStatement → Except AppError Tables
  | [] => .ok t
  | statement :: rest => do
    let t' ← t.execute statement
    t'.executeAll rest

/-- The journal row that a statement adds a posting to. -/
def LedgerStatement.posts : LedgerStatement → Option Uuid
  | .entries (.insert p) => some p.transactionId
  | _ => none

/-- A transaction: its statements, and `entries_must_balance` for every posting when it commits. -/
def Tables.transaction (t : Tables) (statements : List LedgerStatement) :
    Except AppError Tables := do
  let t' ← t.executeAll statements
  passAll t'.assertTransactionBalanced (statements.filterMap LedgerStatement.posts)
  pure t'

/-- The tables after transactions that were each committed, or rolled back. -/
def Tables.after (t : Tables) : List (List LedgerStatement) → Tables
  | [] => t
  | statements :: rest =>
    match t.transaction statements with
    | .ok t' => t'.after rest
    | .error _ => t.after rest

/-! ## What the constraints keep -/

/-- Two accounts that the unique indexes let stand together. -/
structure Account.Apart (a c : Account) : Prop where
  id : a.id ≠ c.id
  key : a.key.text ≠ c.key.text
  wallet : ¬(a.kind = .WALLET ∧ c.kind = .WALLET ∧ a.ownerUserId = c.ownerUserId)
  system : ¬(a.kind ≠ .WALLET ∧ a.kind = c.kind)

/-- Two users that the unique indexes let stand together. -/
structure User.Apart (u v : User) : Prop where
  id : u.id ≠ v.id
  email : u.email.lower ≠ v.email.lower

/-- What the constraints keep after every statement. -/
structure Tables.Sound (t : Tables) : Prop where
  users : t.users.Pairwise User.Apart
  accounts : t.accounts.Pairwise Account.Apart
  transactions : t.transactions.Pairwise fun j k => j.id ≠ k.id
  entries : t.entries.Pairwise fun p q => p.id ≠ q.id
  balances : t.balances.Pairwise fun b c => b.accountId ≠ c.accountId
  owned : ∀ a ∈ t.accounts, (a.kind = .WALLET ↔ a.ownerUserId.isSome = true) ∧
    ∀ owner, a.ownerUserId = some owner → owner ∈ t.users.map User.id
  posted : ∀ p ∈ t.entries, p.amount ≠ 0 ∧ p.accountId ∈ t.accounts.map Account.id ∧
    p.transactionId ∈ t.transactions.map JournalRow.id
  housed : ∀ b ∈ t.balances, b.accountId ∈ t.accounts.map Account.id

section
variable {t t' : Tables} {holds : Bool} {e : AppError}

/-- A demand that is met is true. -/
theorem demand_ok (h : demand holds e = .ok ()) : holds = true := by
  unfold demand at h
  split at h
  · assumption
  · cases h

/-- `users` is read as it was put. -/
theorem usersRules_lawful : usersRules.Lawful where
  rows_put _ _ := rfl
  rows_after h := by cases h; rfl

/-- So is `balances`. -/
theorem balancesRules_lawful : balancesRules.Lawful where
  rows_put _ _ := rfl
  rows_after h := by cases h; rfl

/-- So is `transactions`. -/
theorem transactionsRules_lawful : transactionsRules.Lawful where
  rows_put _ _ := rfl
  rows_after h := by cases h; rfl

/-- So is `entries`. -/
theorem entriesRules_lawful : entriesRules.Lawful where
  rows_put _ _ := rfl
  rows_after h := by cases h; rfl

/-- The trigger on an insertion into `accounts` changes the balances. -/
theorem accounts_after {a : Account} (h : accountsRules.after t a = .ok t') :
    balancesRules.Allowed t (.insert ⟨a.id, 0⟩) t' :=
  Rules.change_allowed h

/-- A change of `balances` changes no other table. -/
theorem balances_only {c : Change Uuid Balance} (h : balancesRules.Allowed t c t') :
    ∃ rows, t' = { t with balances := rows } :=
  Rules.only_put (fun _ _ _ h => by cases h; rfl) (fun _ => rfl) h

/-- So is `accounts`; the trigger on an insertion only adds a balances row. -/
theorem accountsRules_lawful : accountsRules.Lawful where
  rows_put _ _ := rfl
  rows_after h := by
    obtain ⟨rows, rfl⟩ := balances_only (accounts_after h)
    rfl

/-- A change of `users` changes no other table. -/
theorem users_only {c : Change Uuid User} (h : usersRules.Allowed t c t') :
    ∃ rows, t' = { t with users := rows } :=
  Rules.only_put (fun _ _ _ h => by cases h; rfl) (fun _ => rfl) h

/-- A change of `transactions` changes no other table. -/
theorem transactions_only {c : Change Uuid JournalRow} (h : transactionsRules.Allowed t c t') :
    ∃ rows, t' = { t with transactions := rows } :=
  Rules.only_put (fun _ _ _ h => by cases h; rfl) (fun _ => rfl) h

/-- A change of `entries` changes no other table. -/
theorem entries_only {c : Change ℤ PostingRow} (h : entriesRules.Allowed t c t') :
    ∃ rows, t' = { t with entries := rows } :=
  Rules.only_put (fun _ _ _ h => by cases h; rfl) (fun _ => rfl) h

/-- An account is inserted with its balance; any other statement on the accounts changes only
them. -/
theorem accounts_only {c : Change Uuid Account} (h : accountsRules.Allowed t c t') :
    ((∀ a, c ≠ .insert a) ∧ ∃ accounts, t' = { t with accounts := accounts }) ∨
      ∃ a, c = .insert a ∧ (∀ b ∈ t.balances, b.accountId ≠ a.id) ∧
        t' = { t with accounts := t.accounts ++ [a], balances := t.balances ++ [⟨a.id, 0⟩] } := by
  cases h with
  | absent htarget _ =>
    refine .inl ⟨fun a => ?_, _, rfl⟩
    rintro rfl
    cases htarget
  | @inserted a _ _ _ _ _ hafter =>
    cases accounts_after hafter with
    | absent htarget _ => cases htarget
    | inserted _ _ hunique _ hafter =>
      cases hafter
      refine .inr ⟨a, rfl, fun b hb heq => ?_, rfl⟩
      have hne := demand_ok (hunique b hb)
      exact absurd heq.symm (by simpa using hne)
  | updated _ _ _ _ _ _ => exact .inl ⟨fun a => nofun, _, rfl⟩
  | deleted _ _ _ => exact .inl ⟨fun a => nofun, _, rfl⟩

/-! ## Each statement -/

/-- Two users that both pass the unique constraints are apart. -/
theorem users_unique {u v : User} (h : usersRules.unique u v = .ok ()) : u.Apart v := by
  obtain ⟨_, hid, hemail⟩ := bind_ok h
  exact ⟨by simpa using demand_ok hid, by simpa using demand_ok hemail⟩

/-- Two accounts that both pass the unique indexes are apart. -/
theorem accounts_unique {a c : Account} (h : accountsRules.unique a c = .ok ()) : a.Apart c := by
  obtain ⟨_, hid, h⟩ := bind_ok h
  obtain ⟨_, hkey, h⟩ := bind_ok h
  obtain ⟨_, hwallet, hsystem⟩ := bind_ok h
  have hid := demand_ok hid
  have hkey := demand_ok hkey
  have hwallet := demand_ok hwallet
  have hsystem := demand_ok hsystem
  refine ⟨by simpa using hid, by simpa using hkey, ?_, ?_⟩
  · rintro ⟨ha, hc, howner⟩
    simp [ha, hc, howner] at hwallet
  · rintro ⟨ha, hkind⟩
    simp [← hkind, ha] at hsystem

/-- Being apart goes both ways. -/
theorem User.Apart.symm {u v : User} (h : u.Apart v) : v.Apart u :=
  ⟨h.id.symm, h.email.symm⟩

/-- Being apart goes both ways. -/
theorem Account.Apart.symm {a c : Account} (h : a.Apart c) : c.Apart a where
  id := h.id.symm
  key := h.key.symm
  wallet := fun ⟨hc, ha, howner⟩ => h.wallet ⟨ha, hc, howner.symm⟩
  system := fun ⟨hc, hkind⟩ => h.system ⟨hkind ▸ hc, hkind.symm⟩

/-- The CHECK constraint: wallets have an owner, the others have none. -/
theorem accounts_check {a : Account} (h : accountsRules.check a = .ok ()) :
    a.kind = .WALLET ↔ a.ownerUserId.isSome = true := by
  have hviolated : a.violated = none := by
    change (match a.violated with | none => _ | some _ => _) = _ at h
    cases hv : a.violated with
    | none => rfl
    | some constraint =>
      rw [hv] at h
      cases h
  unfold Account.violated firstViolated at hviolated
  by_cases hkind : a.kind = .WALLET
  · cases howner : a.ownerUserId <;> simp_all
  · cases howner : a.ownerUserId <;> simp_all

/-- A statement on the users. -/
theorem Tables.Sound.users_change (hs : t.Sound) {c : Change Uuid User}
    (h : usersRules.Allowed t c t') : t'.Sound := by
  have hapart := usersRules_lawful.pairwise users_unique User.Apart.symm (fun h => h.id) hs.users h
  have hkept : ∀ {id}, id ∈ t.users.map User.id →
      (∃ a ∈ t.accounts, a.ownerUserId = some id) → id ∈ t'.users.map User.id := by
    rintro id hid ⟨a, ha, howner⟩
    refine usersRules_lawful.key_kept h hid fun rows hrows => ?_
    have hall := List.all_eq_true.1 (demand_ok hrows) a ha
    simp [howner] at hall
  obtain ⟨rows, rfl⟩ := users_only h
  exact
    { users := hapart
      accounts := hs.accounts
      transactions := hs.transactions
      entries := hs.entries
      balances := hs.balances
      owned := fun a ha => ⟨(hs.owned a ha).1, fun owner howner =>
        hkept ((hs.owned a ha).2 owner howner) ⟨a, ha, howner⟩⟩
      posted := hs.posted
      housed := hs.housed }

/-- A statement on the journal. -/
theorem Tables.Sound.transactions_change (hs : t.Sound) {c : Change Uuid JournalRow}
    (h : transactionsRules.Allowed t c t') : t'.Sound := by
  have hapart := transactionsRules_lawful.pairwise (P := fun j k => j.id ≠ k.id)
    (fun h => by simpa using demand_ok h) Ne.symm id hs.transactions h
  have hkept : ∀ {id}, id ∈ t.transactions.map JournalRow.id →
      (∃ p ∈ t.entries, p.transactionId = id) → id ∈ t'.transactions.map JournalRow.id := by
    rintro id hid ⟨p, hp, hposted⟩
    refine transactionsRules_lawful.key_kept h hid fun rows hrows => ?_
    have hall := List.all_eq_true.1 (demand_ok hrows) p hp
    simp [hposted] at hall
  obtain ⟨rows, rfl⟩ := transactions_only h
  exact
    { users := hs.users
      accounts := hs.accounts
      transactions := hapart
      entries := hs.entries
      balances := hs.balances
      owned := hs.owned
      posted := fun p hp => ⟨(hs.posted p hp).1, (hs.posted p hp).2.1,
        hkept (hs.posted p hp).2.2 ⟨p, hp, rfl⟩⟩
      housed := hs.housed }

/-- A statement on the postings. -/
theorem Tables.Sound.entries_change (hs : t.Sound) {c : Change ℤ PostingRow}
    (h : entriesRules.Allowed t c t') : t'.Sound := by
  have hapart := entriesRules_lawful.pairwise (P := fun p q => p.id ≠ q.id)
    (fun h => by simpa using demand_ok h) Ne.symm id hs.entries h
  have hrow := fun (p : PostingRow) (hp : p ∈ t'.entries) => entriesRules_lawful.forall_row h hp
  obtain ⟨rows, rfl⟩ := entries_only h
  refine
    { users := hs.users
      accounts := hs.accounts
      transactions := hs.transactions
      entries := hapart
      balances := hs.balances
      owned := hs.owned
      posted := fun p hp => ?_
      housed := hs.housed }
  rcases hrow p hp with hold | ⟨hcheck, -, rows, hreferences⟩
  · exact hs.posted p hold
  · obtain ⟨_, -, hamount⟩ := bind_ok hcheck
    obtain ⟨_, haccount, htransaction⟩ := bind_ok hreferences
    refine ⟨by simpa using demand_ok hamount, ?_, ?_⟩
    · obtain ⟨a, ha, hid⟩ := List.any_eq_true.1 (demand_ok haccount)
      exact List.mem_map.2 ⟨a, ha, beq_iff_eq.1 hid⟩
    · obtain ⟨j, hj, hid⟩ := List.any_eq_true.1 (demand_ok htransaction)
      exact List.mem_map.2 ⟨j, hj, beq_iff_eq.1 hid⟩

/-- A statement on the balances. -/
theorem Tables.Sound.balances_change (hs : t.Sound) {c : Change Uuid Balance}
    (h : balancesRules.Allowed t c t') : t'.Sound := by
  have hapart := balancesRules_lawful.pairwise (P := fun b c => b.accountId ≠ c.accountId)
    (fun h => by simpa using demand_ok h) Ne.symm id hs.balances h
  have hrow := fun (b : Balance) (hb : b ∈ t'.balances) => balancesRules_lawful.forall_row h hb
  obtain ⟨rows, rfl⟩ := balances_only h
  refine
    { users := hs.users
      accounts := hs.accounts
      transactions := hs.transactions
      entries := hs.entries
      balances := hapart
      owned := hs.owned
      posted := hs.posted
      housed := fun b hb => ?_ }
  rcases hrow b hb with hold | ⟨-, -, rows, hreferences⟩
  · exact hs.housed b hold
  · obtain ⟨a, ha, hid⟩ := List.any_eq_true.1 (demand_ok hreferences)
    exact List.mem_map.2 ⟨a, ha, beq_iff_eq.1 hid⟩

/-- A statement on the accounts. -/
theorem Tables.Sound.accounts_change (hs : t.Sound) {c : Change Uuid Account}
    (h : accountsRules.Allowed t c t') : t'.Sound := by
  have hapart :=
    accountsRules_lawful.pairwise accounts_unique Account.Apart.symm (fun h => h.id) hs.accounts h
  have hrow := fun (a : Account) (ha : a ∈ t'.accounts) => accountsRules_lawful.forall_row h ha
  have hkept : ∀ {id}, id ∈ t.accounts.map Account.id →
      ((∃ b ∈ t.balances, b.accountId = id) ∨ ∃ p ∈ t.entries, p.accountId = id) →
      id ∈ t'.accounts.map Account.id := by
    intro id hid hreferred
    refine accountsRules_lawful.key_kept h hid fun rows hrows => ?_
    obtain ⟨_, hbalances, hentries⟩ := bind_ok hrows
    rcases hreferred with ⟨b, hb, hidb⟩ | ⟨p, hp, hidp⟩
    · have hall := List.all_eq_true.1 (demand_ok hbalances) b hb
      simp [hidb] at hall
    · have hall := List.all_eq_true.1 (demand_ok hentries) p hp
      simp [hidp] at hall
  have hhoused : ∀ b ∈ t.balances, b.accountId ∈ t'.accounts.map Account.id :=
    fun b hb => hkept (hs.housed b hb) (.inl ⟨b, hb, rfl⟩)
  have howned : ∀ a ∈ t'.accounts, (a.kind = .WALLET ↔ a.ownerUserId.isSome = true) ∧
      ∀ owner, a.ownerUserId = some owner → owner ∈ t.users.map User.id := by
    intro a ha
    rcases hrow a ha with hold | ⟨hcheck, -, rows, hreferences⟩
    · exact hs.owned a hold
    · refine ⟨accounts_check hcheck, fun owner howner => ?_⟩
      have hany := demand_ok hreferences
      rw [howner] at hany
      obtain ⟨u, hu, hid⟩ := List.any_eq_true.1 hany
      exact List.mem_map.2 ⟨u, hu, beq_iff_eq.1 hid⟩
  have hposted : ∀ p ∈ t.entries, p.amount ≠ 0 ∧ p.accountId ∈ t'.accounts.map Account.id ∧
      p.transactionId ∈ t.transactions.map JournalRow.id :=
    fun p hp => ⟨(hs.posted p hp).1, hkept (hs.posted p hp).2.1 (.inr ⟨p, hp, rfl⟩),
      (hs.posted p hp).2.2⟩
  rcases accounts_only h with ⟨-, accounts, rfl⟩ | ⟨a, -, hnew, rfl⟩
  · exact
      { users := hs.users
        accounts := hapart
        transactions := hs.transactions
        entries := hs.entries
        balances := hs.balances
        owned := howned
        posted := hposted
        housed := hhoused }
  · have hid : a.id ∈ (t.accounts ++ [a]).map Account.id :=
      List.mem_map_of_mem (List.mem_append_right _ (List.mem_singleton.2 rfl))
    exact
      { users := hs.users
        accounts := hapart
        transactions := hs.transactions
        entries := hs.entries
        balances := List.pairwise_append.2 ⟨hs.balances, List.pairwise_singleton _ _,
          fun b hb c hc => List.mem_singleton.1 hc ▸ hnew b hb⟩
        owned := howned
        posted := hposted
        housed := fun b hb => (List.mem_append.1 hb).elim (hhoused b) fun hb => by
          rw [List.mem_singleton.1 hb]
          exact hid }

/-- Every statement that succeeds keeps the tables sound. -/
theorem Tables.Sound.execute (hs : t.Sound) {statement : LedgerStatement}
    (h : t.execute statement = .ok t') : t'.Sound := by
  cases statement with
  | users c => exact hs.users_change (Rules.change_allowed h)
  | accounts c => exact hs.accounts_change (Rules.change_allowed h)
  | transactions c => exact hs.transactions_change (Rules.change_allowed h)
  | entries c => exact hs.entries_change (Rules.change_allowed h)
  | balances c => exact hs.balances_change (Rules.change_allowed h)

/-! ## Debts -/

/-- No wallet is in debit, and neither is escrow. -/
def Tables.Solvent (t : Tables) : Prop :=
  ∀ b ∈ t.balances, ∀ a ∈ t.accounts, a.id = b.accountId → a.kind.neverNegative = true →
    0 ≤ b.balance

/-- The statement turns an account in debit into one that may not be in debit.  The trigger stands
on `balances`, so that nothing looks at the balance then. -/
def LedgerStatement.indebts (t : Tables) : LedgerStatement → Bool
  | .accounts (.update id a) =>
    (lookup Account.id t.accounts id).isSome && a.kind.neverNegative &&
      t.balances.any fun b => b.accountId == a.id && decide (b.balance < 0)
  | _ => false

/-- The accounts have distinct ids. -/
theorem Tables.Sound.account_ids (hs : t.Sound) : (t.accounts.map Account.id).Nodup :=
  List.pairwise_map.2 (hs.accounts.imp fun h => h.id)

/-- The trigger lets no guarded account go into debit. -/
theorem Tables.Solvent.balances_change (hs : t.Sound) (hsolvent : t.Solvent)
    {c : Change Uuid Balance}
    (h : balancesRules.Allowed t c t') : t'.Solvent := by
  have hrow := fun (b : Balance) (hb : b ∈ t'.balances) => balancesRules_lawful.forall_row h hb
  obtain ⟨rows, rfl⟩ := balances_only h
  intro b hb a ha hid hkind
  rcases hrow b hb with hold | ⟨-, ⟨_, hbefore⟩, -⟩
  · exact hsolvent b hold a ha hid hkind
  · have hassert : t.assertBalanceNonNegative b = .ok () := hbefore
    unfold Tables.assertBalanceNonNegative at hassert
    rw [← hid, lookup_of_mem hs.account_ids ha] at hassert
    have hok := demand_ok hassert
    rw [hkind] at hok
    simpa using hok

/-- An account that is replaced is in debit afterwards exactly if the statement turned it into one
that may not be. -/
theorem Tables.Solvent.accounts_update (hsolvent : t.Solvent) {k : Uuid} {a old : Account}
    (hfound : lookup Account.id t.accounts k = some old) :
    ({ t with accounts := modify Account.id t.accounts k fun _ => a } : Tables).Solvent ↔
      (LedgerStatement.accounts (.update k a)).indebts t = false := by
  have hindebts : (LedgerStatement.accounts (.update k a)).indebts t = true ↔
      a.kind.neverNegative = true ∧ ∃ b ∈ t.balances, b.accountId = a.id ∧ b.balance < 0 := by
    simp [LedgerStatement.indebts, hfound]
  rw [← Bool.not_eq_true, hindebts]
  constructor
  · rintro hafter ⟨hkind, b, hb, hid, hdebit⟩
    have ha : a ∈ modify Account.id t.accounts k fun _ => a :=
      List.mem_map.2 ⟨old, lookup_mem hfound, if_pos (lookup_key hfound)⟩
    exact absurd (hafter b hb a ha hid.symm hkind) (not_le.2 hdebit)
  · intro hnone b hb c hc hid hkind
    obtain ⟨q, hq, ⟨-, rfl⟩ | ⟨-, rfl⟩⟩ := mem_modify hc
    · by_contra hdebit
      exact hnone ⟨hkind, b, hb, hid.symm, not_le.1 hdebit⟩
    · exact hsolvent b hb _ hq hid hkind

/-- A statement on the accounts leaves the tables solvent unless it turns an account in debit into
one that may not be. -/
theorem Tables.Solvent.accounts_change (hsolvent : t.Solvent) {c : Change Uuid Account}
    (h : accountsRules.Allowed t c t') :
    t'.Solvent ↔ (LedgerStatement.accounts c).indebts t = false := by
  cases h with
  | @absent c k htarget hmissing =>
    refine ⟨fun _ => ?_, fun _ => hsolvent⟩
    have hnone : lookup Account.id t.accounts k = none := hmissing
    cases c with
    | update k' a =>
      cases htarget
      simp [LedgerStatement.indebts, hnone]
    | _ => rfl
  | @inserted a _ hbefore hcheck hunique hreferences hafter =>
    refine ⟨fun _ => rfl, fun _ => ?_⟩
    rcases accounts_only (.inserted hbefore hcheck hunique hreferences hafter) with
      ⟨hnot, -⟩ | ⟨_, hinsert, hnew, rfl⟩
    · exact absurd rfl (hnot a)
    · cases hinsert
      intro b hb c hc hid hkind
      rcases List.mem_append.1 hb with hb | hb
      · rcases List.mem_append.1 hc with hc | hc
        · exact hsolvent b hb c hc hid hkind
        · rw [List.mem_singleton.1 hc] at hid
          exact absurd hid.symm (hnew b hb)
      · rw [List.mem_singleton.1 hb]
  | updated hfound _ _ _ _ _ => exact hsolvent.accounts_update hfound
  | deleted _ _ _ =>
    refine ⟨fun _ => rfl, fun _ b hb a ha => ?_⟩
    exact hsolvent b hb a (List.mem_filter.1 ha).1

/-- What a statement does to the debts. -/
theorem Tables.Solvent.execute (hs : t.Sound) (hsolvent : t.Solvent) {statement : LedgerStatement}
    (h : t.execute statement = .ok t') : t'.Solvent ↔ statement.indebts t = false := by
  cases statement with
  | users c =>
    obtain ⟨rows, rfl⟩ := users_only (Rules.change_allowed h)
    exact ⟨fun _ => rfl, fun _ => hsolvent⟩
  | accounts c => exact hsolvent.accounts_change (Rules.change_allowed h)
  | transactions c =>
    obtain ⟨rows, rfl⟩ := transactions_only (Rules.change_allowed h)
    exact ⟨fun _ => rfl, fun _ => hsolvent⟩
  | entries c =>
    obtain ⟨rows, rfl⟩ := entries_only (Rules.change_allowed h)
    exact ⟨fun _ => rfl, fun _ => hsolvent⟩
  | balances c =>
    exact ⟨fun _ => rfl, fun _ => hsolvent.balances_change hs (Rules.change_allowed h)⟩

/-! ## The journal -/

/-- Every journal row has no postings, or at least two that sum to zero. -/
def Tables.Squared (t : Tables) : Prop :=
  ∀ id, t.postings id = [] ∨
    2 ≤ (t.postings id).length ∧ ((t.postings id).map PostingRow.amount).sum = 0

/-- The trigger of the journal lets no old row be changed or deleted. -/
theorem forbidMutation_some {ρ : Type} {table : String} (old : ρ) (new : Option ρ) :
    forbidMutation table (some old) new ≠ .ok () := fun h => by cases demand_ok h

/-- The journal is only appended to, a posting at a time. -/
theorem execute_journal {statement : LedgerStatement} (h : t.execute statement = .ok t') :
    t.transactions <+: t'.transactions ∧ ∃ more, t'.entries = t.entries ++ more ∧
      ∀ p ∈ more, statement.posts = some p.transactionId := by
  have hsame : ∀ {t' : Tables}, t'.entries = t.entries → ∃ more, t'.entries = t.entries ++ more ∧
      ∀ p ∈ more, statement.posts = some p.transactionId :=
    fun h => ⟨[], by rw [h, List.append_nil], List.forall_mem_nil _⟩
  cases statement with
  | users c =>
    obtain ⟨rows, rfl⟩ := users_only (Rules.change_allowed h)
    exact ⟨List.prefix_refl _, hsame rfl⟩
  | accounts c =>
    rcases accounts_only (Rules.change_allowed h) with ⟨-, rows, rfl⟩ | ⟨a, -, -, rfl⟩
    · exact ⟨List.prefix_refl _, hsame rfl⟩
    · exact ⟨List.prefix_refl _, hsame rfl⟩
  | transactions c =>
    have hallowed : transactionsRules.Allowed t c t' := Rules.change_allowed h
    have happends :=
      transactionsRules_lawful.appends (fun _ => forbidMutation_some) hallowed
    obtain ⟨rows, rfl⟩ := transactions_only hallowed
    refine ⟨?_, hsame rfl⟩
    rcases happends with heq | ⟨j, -, heq⟩
    · exact ⟨[], (List.append_nil _).trans heq.symm⟩
    · exact ⟨[j], heq.symm⟩
  | entries c =>
    have hallowed : entriesRules.Allowed t c t' := Rules.change_allowed h
    have happends := entriesRules_lawful.appends (fun _ => forbidMutation_some) hallowed
    obtain ⟨rows, rfl⟩ := entries_only hallowed
    refine ⟨List.prefix_refl _, ?_⟩
    rcases happends with heq | ⟨p, rfl, heq⟩
    · exact hsame heq
    · refine ⟨[p], heq, fun q hq => ?_⟩
      rw [List.mem_singleton.1 hq]
      rfl
  | balances c =>
    obtain ⟨rows, rfl⟩ := balances_only (Rules.change_allowed h)
    exact ⟨List.prefix_refl _, hsame rfl⟩

/-- Statements only append to the journal, and to the entries of the rows that they name. -/
theorem executeAll_journal {statements : List LedgerStatement}
    (h : t.executeAll statements = .ok t') :
    t.transactions <+: t'.transactions ∧ ∃ more, t'.entries = t.entries ++ more ∧
      ∀ p ∈ more, p.transactionId ∈ statements.filterMap LedgerStatement.posts := by
  induction statements generalizing t with
  | nil =>
    cases h
    exact ⟨List.prefix_refl _, [], (List.append_nil _).symm, List.forall_mem_nil _⟩
  | cons statement rest ih =>
    obtain ⟨t₁, hfirst, hrest⟩ := bind_ok h
    obtain ⟨hgrows, more, hmore, hposts⟩ := execute_journal hfirst
    obtain ⟨hgrows', more', hmore', hposts'⟩ := ih hrest
    refine ⟨hgrows.trans hgrows', more ++ more', by rw [hmore', hmore, List.append_assoc], ?_⟩
    intro p hp
    rw [List.mem_filterMap]
    rcases List.mem_append.1 hp with hp | hp
    · exact ⟨statement, List.mem_cons_self, hposts p hp⟩
    · obtain ⟨later, hlater, hid⟩ := List.mem_filterMap.1 (hposts' p hp)
      exact ⟨later, List.mem_cons_of_mem _ hlater, hid⟩

/-- So does a list of statements. -/
theorem Tables.Sound.executeAll (hs : t.Sound) {statements : List LedgerStatement}
    (h : t.executeAll statements = .ok t') : t'.Sound := by
  induction statements generalizing t with
  | nil =>
    cases h
    exact hs
  | cons statement rest ih =>
    obtain ⟨t₁, hfirst, hrest⟩ := bind_ok h
    exact ih (hs.execute hfirst) hrest

/-- The deferred trigger accepts a journal row. -/
theorem balanced_of_assert {id : Uuid} (h : t.assertTransactionBalanced id = .ok ()) :
    2 ≤ (t.postings id).length ∧ ((t.postings id).map PostingRow.amount).sum = 0 := by
  obtain ⟨_, -, h⟩ := bind_ok h
  obtain ⟨_, hlegs, htotal⟩ := bind_ok h
  exact ⟨of_decide_eq_true (demand_ok hlegs), of_decide_eq_true (demand_ok htotal)⟩

/-- A transaction that is committed leaves the journal squared: the trigger has looked at every
journal row that it added a posting to. -/
theorem transaction_journal (hs : t.Sound) (hsquared : t.Squared)
    {statements : List LedgerStatement}
    (h : t.transaction statements = .ok t') :
    t'.Sound ∧ t'.Squared ∧ t.transactions <+: t'.transactions ∧ t.entries <+: t'.entries := by
  obtain ⟨t₁, hall, h⟩ := bind_ok h
  obtain ⟨_, hdeferred, h⟩ := bind_ok h
  cases h
  obtain ⟨hgrows, more, hmore, hposts⟩ := executeAll_journal hall
  refine ⟨hs.executeAll hall, fun id => ?_, hgrows, hmore ▸ List.prefix_append _ _⟩
  have hpostings : t'.postings id =
      t.postings id ++ more.filter fun p => decide (p.transactionId = id) := by
    unfold Tables.postings
    rw [hmore, List.filter_append]
  by_cases hnew : more.filter (fun p => decide (p.transactionId = id)) = []
  · rw [hpostings, hnew, List.append_nil]
    exact hsquared id
  · obtain ⟨p, hp⟩ := List.exists_mem_of_ne_nil _ hnew
    obtain ⟨hp, hid⟩ := List.mem_filter.1 hp
    have hposted := hposts p hp
    rw [of_decide_eq_true hid] at hposted
    exact .inr (balanced_of_assert (passAll_ok hdeferred id hposted))

/-- After any transactions the journal is squared, and nothing of it has been lost. -/
theorem after_journal (hs : t.Sound) (hsquared : t.Squared)
    (history : List (List LedgerStatement)) :
    (t.after history).Sound ∧ (t.after history).Squared ∧
      t.transactions <+: (t.after history).transactions ∧
      t.entries <+: (t.after history).entries := by
  induction history generalizing t with
  | nil => exact ⟨hs, hsquared, List.prefix_refl _, List.prefix_refl _⟩
  | cons statements rest ih =>
    unfold Tables.after
    split
    · next t' h =>
      obtain ⟨hs', hsquared', htransactions, hentries⟩ := transaction_journal hs hsquared h
      obtain ⟨hs'', hsquared'', htransactions', hentries'⟩ := ih hs' hsquared'
      exact ⟨hs'', hsquared'', htransactions.trans htransactions', hentries.trans hentries'⟩
    · exact ih hs hsquared

/-- The tables are sound after the migrations. -/
theorem migrated_sound : Tables.migrated.Sound where
  users := List.Pairwise.nil
  accounts := by
    refine .cons ?_ (.cons ?_ (List.pairwise_singleton _ _))
    · intro a ha
      simp only [List.mem_cons, List.not_mem_nil, or_false] at ha
      rcases ha with rfl | rfl <;> exact ⟨by decide, by decide, by decide, by decide⟩
    · intro a ha
      rw [List.mem_singleton.1 ha]
      exact ⟨by decide, by decide, by decide, by decide⟩
  transactions := List.Pairwise.nil
  entries := List.Pairwise.nil
  balances := by decide
  owned a ha := by
    simp only [Tables.migrated, migrated, List.mem_cons, List.not_mem_nil, or_false] at ha
    rcases ha with rfl | rfl | rfl <;> exact ⟨by decide, fun _ h => by cases h⟩
  posted := List.forall_mem_nil _
  housed := by decide

/-- Whatever statements are run: the journal rows that have postings have at least two, which sum to
zero and are not zero, and what was committed stays there unchanged. -/
theorem raw_journal (history more : List (List LedgerStatement)) :
    (Tables.migrated.after history).Sound ∧ (Tables.migrated.after history).Squared ∧
      (Tables.migrated.after history).transactions <+:
        ((Tables.migrated.after history).after more).transactions ∧
      (Tables.migrated.after history).entries <+:
        ((Tables.migrated.after history).after more).entries := by
  have hstart : Tables.migrated.Squared := fun _ => .inl rfl
  obtain ⟨hs, hsquared, -, -⟩ := after_journal migrated_sound hstart history
  obtain ⟨-, -, htransactions, hentries⟩ := after_journal hs hsquared more
  exact ⟨hs, hsquared, htransactions, hentries⟩

/-- The trigger stands on `entries`, so that a journal row without postings can be committed. -/
example : (Tables.migrated.after
    [[.transactions (.insert ⟨9, "SIGNUP_GRANT", none, none⟩)]]).transactions.length = 1 := by
  decide

/-! ## Runs without debts -/

/-- A statement of the list turns an account in debit into one that may not be. -/
def Tables.Indebts (t : Tables) : List LedgerStatement → Prop
  | [] => False
  | statement :: rest =>
    statement.indebts t = true ∨ ∃ t', t.execute statement = .ok t' ∧ t'.Indebts rest

/-- No transaction that is committed does so. -/
def Tables.Careful (t : Tables) : List (List LedgerStatement) → Prop
  | [] => True
  | statements :: rest =>
    match t.transaction statements with
    | .ok t' => ¬t.Indebts statements ∧ t'.Careful rest
    | .error _ => t.Careful rest

/-- The tables after each statement. -/
def Tables.trace (t : Tables) : List LedgerStatement → List Tables
  | [] => [t]
  | statement :: rest =>
    match t.execute statement with
    | .ok t' => t :: t'.trace rest
    | .error _ => [t]

/-- The tables after each statement of the transactions that are committed. -/
def Tables.states (t : Tables) : List (List LedgerStatement) → List Tables
  | [] => [t]
  | statements :: rest =>
    match t.transaction statements with
    | .ok t' => t.trace statements ++ t'.states rest
    | .error _ => t.states rest

/-- A list of statements starts where it starts. -/
theorem mem_trace (t : Tables) (statements : List LedgerStatement) : t ∈ t.trace statements := by
  cases statements with
  | nil => exact List.mem_singleton_self t
  | cons statement rest =>
    unfold Tables.trace
    split
    · exact List.mem_cons_self
    · exact List.mem_singleton_self t

/-- It ends among the states that it passes. -/
theorem executeAll_mem_trace {statements : List LedgerStatement}
    (h : t.executeAll statements = .ok t') :
    t' ∈ t.trace statements := by
  induction statements generalizing t with
  | nil =>
    cases h
    exact List.mem_singleton_self _
  | cons statement rest ih =>
    obtain ⟨t₁, hfirst, hrest⟩ := bind_ok h
    unfold Tables.trace
    rw [hfirst]
    exact List.mem_cons_of_mem _ (ih hrest)

/-- The tables stay solvent along a list of statements exactly if none of them turns an account in
debit into one that may not be. -/
theorem trace_solvent (hs : t.Sound) (hsolvent : t.Solvent) {statements : List LedgerStatement}
    (h : t.executeAll statements = .ok t') :
    (∀ t₁ ∈ t.trace statements, t₁.Solvent) ↔ ¬t.Indebts statements := by
  induction statements generalizing t with
  | nil => exact ⟨fun _ => id, fun _ => List.forall_mem_singleton.2 hsolvent⟩
  | cons statement rest ih =>
    obtain ⟨t₁, hfirst, hrest⟩ := bind_ok h
    have hstep := hsolvent.execute hs hfirst
    have hindebts : t.Indebts (statement :: rest) ↔
        statement.indebts t = true ∨ t₁.Indebts rest := by
      rw [Tables.Indebts, hfirst]
      simp
    have htrace : t.trace (statement :: rest) = t :: t₁.trace rest := by
      rw [Tables.trace, hfirst]
    rw [htrace, List.forall_mem_cons, hindebts, not_or, Bool.not_eq_true, ← hstep]
    constructor
    · rintro ⟨-, hall⟩
      have hsolvent₁ := hall t₁ (mem_trace t₁ rest)
      exact ⟨hsolvent₁, (ih (hs.execute hfirst) hsolvent₁ hrest).1 hall⟩
    · rintro ⟨hsolvent₁, hnone⟩
      exact ⟨hsolvent, (ih (hs.execute hfirst) hsolvent₁ hrest).2 hnone⟩

/-- No state that is passed has a debt if and only if no statement was careless. -/
theorem after_solvent (hs : t.Sound) (hsquared : t.Squared) (hsolvent : t.Solvent)
    (history : List (List LedgerStatement)) :
    (∀ t₁ ∈ t.states history, t₁.Solvent) ↔ t.Careful history := by
  induction history generalizing t with
  | nil => exact ⟨fun _ => trivial, fun _ => List.forall_mem_singleton.2 hsolvent⟩
  | cons statements rest ih =>
    unfold Tables.states Tables.Careful
    split
    · next t' h =>
      obtain ⟨hs', hsquared', -, -⟩ := transaction_journal hs hsquared h
      obtain ⟨t₁, hall, hcommit⟩ := bind_ok h
      obtain ⟨_, -, hcommit⟩ := bind_ok hcommit
      cases hcommit
      rw [List.forall_mem_append, trace_solvent hs hsolvent hall]
      refine and_congr_right fun hnone => ih hs' hsquared' ?_
      exact (trace_solvent hs hsolvent hall).2 hnone t' (executeAll_mem_trace hall)
    · exact ih hs hsquared hsolvent

/-- The tables after all transactions are among those after each statement. -/
theorem after_mem_states (t : Tables) (history : List (List LedgerStatement)) :
    t.after history ∈ t.states history := by
  induction history generalizing t with
  | nil => exact List.mem_singleton_self t
  | cons statements rest ih =>
    unfold Tables.after Tables.states
    split
    · exact List.mem_append_right _ (ih _)
    · exact ih t

/-- Whatever statements are run, no wallet is in debit after any of them, and neither is escrow,
exactly if no account in debit was turned into a wallet or into escrow. -/
theorem raw_balances (history : List (List LedgerStatement)) :
    ((∀ t ∈ Tables.migrated.states history, t.Solvent) ↔ Tables.migrated.Careful history) ∧
      Tables.migrated.after history ∈ Tables.migrated.states history := by
  have hsolvent : Tables.migrated.Solvent := by
    have hzero : ∀ b ∈ Tables.migrated.balances, b.balance = 0 := by decide
    exact fun b hb _ _ _ _ => (hzero b hb).ge
  exact ⟨after_solvent migrated_sound (fun _ => .inl rfl) hsolvent history, after_mem_states _ _⟩

/-- The house goes into debit, and becomes somebody's wallet. -/
example : (Tables.migrated.after
    [[.users (.insert ⟨9, ⟨"ann", "ann"⟩, "Ann", "secret", "user", "active"⟩),
      .balances (.update houseId ⟨houseId, -5⟩),
      .accounts (.update houseId ⟨houseId, .WALLET, some 9, .other "ANN"⟩)]]).accounts[2]? =
    some ⟨houseId, .WALLET, some 9, .other "ANN"⟩ := by
  decide +kernel

end

/-! ## The application's statements -/

/-- The name the source writes. -/
def TransactionKind.text : TransactionKind → String
  | .SIGNUP_GRANT => "SIGNUP_GRANT"
  | .BET_PLACED => "BET_PLACED"
  | .BET_CASHOUT => "BET_CASHOUT"
  | .BET_LOST => "BET_LOST"
  | .ROUND_VOID_REFUND => "ROUND_VOID_REFUND"

def Transaction.row (t : Transaction) : JournalRow :=
  ⟨t.id, t.kind.text, t.reference.map Reference.type, t.reference.map Reference.id⟩

def Entry.row (e : Entry) : PostingRow :=
  ⟨e.id, e.transactionId, e.accountId, e.amount⟩

/-- The tables of the initial migration. -/
def Db.ledgerTables (s : Db) : Tables where
  users := s.users
  accounts := s.accounts
  transactions := s.transactions.map Transaction.row
  entries := s.entries.map Entry.row
  balances := s.balances

/-- The statement that makes a write. -/
def Write.statement (s : Db) : Write → Option LedgerStatement
  | .insertUser u => some (.users (.insert u))
  | .insertAccount a => some (.accounts (.insert a))
  | .insertTransaction t => some (.transactions (.insert t.row))
  | .insertEntry e => some (.entries (.insert e.row))
  | .addBalance id amount => some (.balances (.update id ⟨id, s.balanceOf id + amount⟩))
  | _ => none

/-- The statements that make a list of writes. -/
def statementsOf (s : Db) : List Write → List LedgerStatement
  | [] => []
  | w :: rows => (w.statement s).toList ++ statementsOf (s.apply w) rows

section
variable {s : Db} {w : Write} {rows : List Write} {t : Tables}

/-- A write without a statement leaves the tables of the ledger alone. -/
theorem ledgerTables_of_idle (h : w.statement s = none) :
    (s.apply w).ledgerTables = s.ledgerTables := by
  cases w with
  | insertUser u => cases h
  | insertAccount a => cases h
  | insertTransaction t => cases h
  | insertEntry e => cases h
  | addBalance id amount => cases h
  | _ => rfl

/-- Where the schema lets a statement of the application pass, it does what the write does. -/
theorem execute_statement (hs : s.ledgerTables.Sound) {statement : LedgerStatement}
    (hstatement : w.statement s = some statement) (h : s.ledgerTables.execute statement = .ok t) :
    (s.apply w).ledgerTables = t := by
  cases w with
  | insertUser u =>
    cases hstatement
    cases (Rules.change_allowed h : usersRules.Allowed s.ledgerTables (.insert u) t) with
    | absent htarget _ => cases htarget
    | inserted _ _ _ _ hafter =>
      cases hafter
      rfl
  | insertAccount a =>
    cases hstatement
    have hallowed : accountsRules.Allowed s.ledgerTables (.insert a) t := Rules.change_allowed h
    rcases accounts_only hallowed with ⟨hnot, -⟩ | ⟨a', heq, -, rfl⟩
    · exact absurd rfl (hnot a)
    · cases heq
      rfl
  | insertTransaction j =>
    cases hstatement
    cases (Rules.change_allowed h : transactionsRules.Allowed s.ledgerTables (.insert j.row) t) with
    | absent htarget _ => cases htarget
    | inserted _ _ _ _ hafter =>
      cases hafter
      simp [Db.apply, Db.ledgerTables, transactionsRules]
  | insertEntry e =>
    cases hstatement
    cases (Rules.change_allowed h : entriesRules.Allowed s.ledgerTables (.insert e.row) t) with
    | absent htarget _ => cases htarget
    | inserted _ _ _ _ hafter =>
      cases hafter
      simp [Db.apply, Db.ledgerTables, entriesRules]
  | addBalance id amount =>
    cases hstatement
    have hids : (s.balances.map Balance.accountId).Nodup := List.pairwise_map.2 hs.balances
    have hchange : modify Balance.accountId s.balances id (Balance.add amount) =
        modify Balance.accountId s.balances id fun _ => ⟨id, s.balanceOf id + amount⟩ := by
      refine List.map_congr_left fun b hb => ?_
      by_cases hid : b.accountId = id
      · have hfound : s.balance id = some b := hid ▸ lookup_of_mem hids hb
        rw [if_pos hid, if_pos hid]
        simp [Balance.add, Db.balanceOf, hfound, hid]
      · rw [if_neg hid, if_neg hid]
    have happly : (s.apply (.addBalance id amount)).ledgerTables =
        { s.ledgerTables with
          balances := modify Balance.accountId s.balances id fun _ =>
            ⟨id, s.balanceOf id + amount⟩ } := by
      rw [← hchange]
      rfl
    rw [happly]
    have hallowed :
        balancesRules.Allowed s.ledgerTables (.update id ⟨id, s.balanceOf id + amount⟩) t :=
      Rules.change_allowed h
    cases hallowed with
    | absent htarget hmissing =>
      cases htarget
      have habsent : ∀ b ∈ s.balances, b.accountId ≠ id := lookup_eq_none.1 hmissing
      rw [modify_absent habsent]
      rfl
    | updated _ _ _ _ _ _ => rfl
  | _ => cases hstatement

/-- The deferred trigger of the model is that of the schema. -/
theorem assertTransactionBalanced_ledgerTables (id : Uuid)
    (h : s.ledgerTables.assertTransactionBalanced id = .ok ()) :
    s.assertTransactionBalanced id = .ok () := by
  obtain ⟨hlegs, htotal⟩ := balanced_of_assert h
  have hpostings : s.ledgerTables.postings id = (s.postings id).map Entry.row := by
    unfold Tables.postings Db.postings
    exact List.filter_map
  rw [hpostings, List.length_map] at hlegs
  rw [hpostings, List.map_map] at htotal
  have htotal : ((s.postings id).map Entry.amount).sum = 0 := htotal
  unfold Db.assertTransactionBalanced
  simp [not_lt.2 hlegs, htotal]

/-- The statements of some writes do to the tables what the writes do to the state. -/
theorem executeAll_statementsOf (hs : s.ledgerTables.Sound)
    (h : s.ledgerTables.executeAll (statementsOf s rows) = .ok t) :
    (database.applyAll s rows).ledgerTables = t := by
  induction rows generalizing s with
  | nil =>
    cases h
    rfl
  | cons w rows ih =>
    unfold statementsOf at h
    cases hstatement : w.statement s with
    | none =>
      rw [hstatement] at h
      have hidle := ledgerTables_of_idle hstatement
      exact ih (hidle ▸ hs) (hidle ▸ h)
    | some statement =>
      rw [hstatement] at h
      obtain ⟨t₁, hfirst, hrest⟩ := bind_ok h
      have happly := execute_statement hs hstatement hfirst
      exact ih (happly ▸ hs.execute hfirst) (happly ▸ hrest)

/-- An entry that is written is posted by one of the statements. -/
theorem mem_posts {e : Entry} (he : .insertEntry e ∈ rows) :
    e.transactionId ∈ (statementsOf s rows).filterMap LedgerStatement.posts := by
  induction rows generalizing s with
  | nil => cases he
  | cons w rows ih =>
    unfold statementsOf
    rw [List.filterMap_append]
    rcases List.mem_cons.1 he with rfl | he
    · exact List.mem_append_left _ (by simp [Write.statement, LedgerStatement.posts, Entry.row])
    · exact List.mem_append_right _ (ih he)

/-- Whenever the schema alone would commit what a transaction of the application writes, the model
commits it, and to the same tables. -/
theorem transaction_statements (hs : s.ledgerTables.Sound)
    (h : s.ledgerTables.transaction (statementsOf s rows) = .ok t) :
    (database.applyAll s rows).ledgerTables = t ∧
      (database.applyAll s rows).deferred rows = .ok () := by
  obtain ⟨t₁, hall, h⟩ := bind_ok h
  obtain ⟨_, hdeferred, h⟩ := bind_ok h
  cases h
  have htables := executeAll_statementsOf hs hall
  refine ⟨htables, Db.deferred_eq_ok.2 fun e he => ?_⟩
  have hassert := passAll_ok hdeferred _ (mem_posts (s := s) he)
  rw [← htables] at hassert
  exact assertTransactionBalanced_ledgerTables _ hassert

end

/-- The house pays escrow 70. -/
def housePayment : List Write :=
  [.insertTransaction ⟨9, .BET_LOST, some ⟨"bet", 8⟩⟩, .insertEntry ⟨1, 9, escrowId, 70, 0⟩,
    .insertEntry ⟨2, 9, houseId, -70, 0⟩, .addBalance escrowId 70, .addBalance houseId (-70)]

theorem transaction_statements_housePayment :
    (database.applyAll migrated housePayment).ledgerTables.balances =
        [⟨mintId, 0⟩, ⟨escrowId, 70⟩, ⟨houseId, -70⟩] ∧
      (database.applyAll migrated housePayment).deferred housePayment = .ok () := by
  have hcommits : ∃ t,
      migrated.ledgerTables.transaction (statementsOf migrated housePayment) = .ok t ∧
      t.balances = [⟨mintId, 0⟩, ⟨escrowId, 70⟩, ⟨houseId, -70⟩] :=
    ⟨_, rfl, rfl⟩
  obtain ⟨t, ht, hbalances⟩ := hcommits
  obtain ⟨htables, hdeferred⟩ := transaction_statements (s := migrated) migrated_sound ht
  exact ⟨htables ▸ hbalances, hdeferred⟩

end Tessera
