import Tessera.Database.Statements
import Tessera.Transactions.Logic

/-!
# What locks protect, and how the tables grow

* `needs` — the locks under which each row write happens;
* `Same` — what a lock on a row or an index entry keeps others from changing;
* `Grows` — what no write ever undoes: rows are added, fixed columns stay;
* `Alike` — the same tables, up to the counter of the entries.
-/

namespace Tessera

open Relational Transactions

/-! ## Locks -/

/-- The locks that a row write is made under. -/
def needs : Write → List (LockKey × LockMode)
  | .insertUser u => [(.user u.id, .exclusive), (.userEmail u.email.lower, .exclusive)]
  | .insertAccount a =>
    [(.account a.id, .exclusive), (.accountKey a.key, .exclusive),
      (match a.ownerUserId with
        | some owner => .accountOwner owner
        | none => .accountSystemKind a.kind, .exclusive),
      (.balance a.id, .exclusive)]
  | .insertTransaction t => [(.transaction t.id, .exclusive)]
  | .insertEntry e => [(.transaction e.transactionId, .exclusive)]
  | .addBalance id _ => [(.balance id, .exclusive)]
  | .insertRound r =>
    [(.round r.id, .exclusive), (.roundNonce r.nonce, .exclusive),
      (.liveRound r.game, .exclusive)] ++
      match r.chainId with
      | some chainId => [(.chainPosition chainId (r.chainIndex.getD 0), .exclusive)]
      | none => []
  | .updateRound id _ => [(.round id, .exclusive)]
  | .insertBet b =>
    [(.bet b.id, .exclusive), (.betIdempotency b.userId b.idempotencyKey, .exclusive),
      (.round b.roundId, .share)]
  | .updateBet id _ => [(.bet id, .exclusive)]
  | .insertChain c => [(.chain c.id, .exclusive), (.chainFirstNonce c.firstNonce, .exclusive)]
  | .insertToken t => [(.token t.id, .exclusive), (.tokenHash t.tokenHash, .exclusive)]
  | .updateToken id _ => [(.token id, .exclusive)]
  | .notify _ | .drawNonce | .drawEntryId => []

/-- The ids of the bets on a round, oldest first. -/
def Db.betsOn (s : Db) (roundId : Uuid) : List Uuid :=
  (s.bets.filter fun b => b.roundId == roundId).map Bet.id

/-- The ids of the rounds of a game, oldest first. -/
def Db.roundsOf (s : Db) (game : GameKind) : List Uuid :=
  (s.rounds.filter fun r => r.game == game).map Round.id

/-- What a lock keeps others from changing.  An exclusive lock on a round also keeps bets
from being added to it, since those are inserted under a shared one. -/
def Same : LockKey → LockMode → Db → Db → Prop
  | .user id, _, s, s' => s'.user id = s.user id
  | .userEmail email, _, s, s' =>
    (s'.users.any fun u => u.email.lower == email) = s.users.any fun u => u.email.lower == email
  | .account id, _, s, s' => s'.account id = s.account id
  | .accountKey key, _, s, s' => s'.accountByKey key = s.accountByKey key
  | .accountOwner owner, _, s, s' =>
    (s'.accounts.any fun a => a.ownerUserId == some owner) =
      s.accounts.any fun a => a.ownerUserId == some owner
  | .accountSystemKind kind, _, s, s' =>
    (s'.accounts.any fun a => a.ownerUserId == none && a.kind == kind) =
      s.accounts.any fun a => a.ownerUserId == none && a.kind == kind
  | .balance id, _, s, s' => s'.balance id = s.balance id ∧ s'.account id = s.account id
  | .transaction id, _, s, s' =>
    (s'.transactions.any fun t => t.id == id) = (s.transactions.any fun t => t.id == id) ∧
      s'.postings id = s.postings id
  | .round id, m, s, s' =>
    s'.round id = s.round id ∧ (m = .exclusive → s'.betsOn id = s.betsOn id)
  | .roundNonce nonce, _, s, s' =>
    (s'.rounds.any fun r => r.nonce == nonce) = s.rounds.any fun r => r.nonce == nonce
  | .liveRound game, _, s, s' => s'.roundsOf game = s.roundsOf game
  | .chainPosition chainId index, _, s, s' =>
    (s'.rounds.any fun r => r.chainId == some chainId && r.chainIndex == some index) =
      s.rounds.any fun r => r.chainId == some chainId && r.chainIndex == some index
  | .bet id, _, s, s' => s'.bet id = s.bet id
  | .betIdempotency userId key, _, s, s' =>
    (s'.bets.any fun b => b.userId == userId && b.idempotencyKey == key) =
      s.bets.any fun b => b.userId == userId && b.idempotencyKey == key
  | .chain id, _, s, s' => s'.chain id = s.chain id
  | .chainFirstNonce nonce, _, s, s' =>
    (s'.chains.any fun c => c.firstNonce == nonce) = s.chains.any fun c => c.firstNonce == nonce
  | .token id, _, s, s' => s'.token id = s.token id
  | .tokenHash hash, _, s, s' =>
    (s'.tokens.any fun t => t.tokenHash == hash) = s.tokens.any fun t => t.tokenHash == hash

/-- A state agrees with itself on what any lock protects. -/
theorem Same.refl (k : LockKey) (m : LockMode) (s : Db) : Same k m s s := by
  cases k <;> simp [Same]

/-- What a lock protects is kept by two steps if it is kept by both. -/
theorem Same.trans {k : LockKey} {m : LockMode} {s s' s'' : Db} (h : Same k m s s')
    (h' : Same k m s' s'') : Same k m s s'' := by
  cases k with
  | transaction id => exact ⟨h'.1.trans h.1, h'.2.trans h.2⟩
  | balance id => exact ⟨h'.1.trans h.1, h'.2.trans h.2⟩
  | round id => exact ⟨h'.1.trans h.1, fun hm => (h'.2 hm).trans (h.2 hm)⟩
  | _ => exact Eq.trans h' h

/-! ## What each table becomes under a write -/

section
variable (s : Db) (w : Write)

theorem Db.apply_users :
    (s.apply w).users = match w with
      | .insertUser u => s.users ++ [u]
      | _ => s.users := by
  cases w <;> rfl

theorem Db.apply_accounts :
    (s.apply w).accounts = match w with
      | .insertAccount a => s.accounts ++ [a]
      | _ => s.accounts := by
  cases w <;> rfl

theorem Db.apply_transactions :
    (s.apply w).transactions = match w with
      | .insertTransaction t => s.transactions ++ [t]
      | _ => s.transactions := by
  cases w <;> rfl

theorem Db.apply_entries :
    (s.apply w).entries = match w with
      | .insertEntry e => s.entries ++ [e]
      | _ => s.entries := by
  cases w <;> rfl

theorem Db.apply_balances :
    (s.apply w).balances = match w with
      | .insertAccount a => s.balances ++ [⟨a.id, 0⟩]
      | .addBalance id amount => modify Balance.accountId s.balances id (Balance.add amount)
      | _ => s.balances := by
  cases w <;> rfl

theorem Db.apply_rounds :
    (s.apply w).rounds = match w with
      | .insertRound r => s.rounds ++ [r]
      | .updateRound id u => modify Round.id s.rounds id u.row
      | _ => s.rounds := by
  cases w <;> rfl

theorem Db.apply_bets :
    (s.apply w).bets = match w with
      | .insertBet b => s.bets ++ [b]
      | .updateBet id u => modify Bet.id s.bets id u.row
      | _ => s.bets := by
  cases w <;> rfl

theorem Db.apply_chains :
    (s.apply w).chains = match w with
      | .insertChain c => s.chains ++ [c]
      | _ => s.chains := by
  cases w <;> rfl

theorem Db.apply_tokens :
    (s.apply w).tokens = match w with
      | .insertToken t => s.tokens ++ [t]
      | .updateToken id u => modify RefreshToken.id s.tokens id u.row
      | _ => s.tokens := by
  cases w <;> rfl

end

/-- The columns of a round that no `UPDATE` sets. -/
def Round.core (r : Round) : Round :=
  { r with
    status := .OPEN, startedAt := none, resolvedAt := none, settledAt := none
    seedRevealed := none }

/-- The columns of a bet that no `UPDATE` sets. -/
def Bet.core (b : Bet) : Bet :=
  { b with status := .ACTIVE, settledMultiplierBp := none, payoutMinor := none, settledAt := none }

/-- The columns of a token that no `UPDATE` sets. -/
def RefreshToken.core (t : RefreshToken) : RefreshToken :=
  { t with usedAt := none, revokedAt := none }

/-- An `UPDATE` of a round keeps the columns that it does not set. -/
@[simp] theorem RoundUpdate.row_core (u : RoundUpdate) (r : Round) : (u.row r).core = r.core :=
  rfl

/-- An `UPDATE` of a bet keeps the columns that it does not set. -/
@[simp] theorem BetUpdate.row_core (u : BetUpdate) (b : Bet) : (u.row b).core = b.core := rfl

@[simp] theorem RoundUpdate.row_id (u : RoundUpdate) (r : Round) : (u.row r).id = r.id := rfl

@[simp] theorem BetUpdate.row_id (u : BetUpdate) (b : Bet) : (u.row b).id = b.id := rfl

/-- A balance that moves stays with its account. -/
@[simp] theorem Balance.add_accountId (amount : ℤ) (b : Balance) :
    (b.add amount).accountId = b.accountId := rfl

/-- An `UPDATE` of a token keeps the columns that it does not set. -/
@[simp] theorem TokenUpdate.row_core (u : TokenUpdate) (t : RefreshToken) :
    (u.row t).core = t.core := by
  cases u <;> rfl

@[simp] theorem TokenUpdate.row_id (u : TokenUpdate) (t : RefreshToken) :
    (u.row t).id = t.id := by
  cases u <;> rfl

/-- The hash of a token is never updated. -/
@[simp] theorem TokenUpdate.row_tokenHash (u : TokenUpdate) (t : RefreshToken) :
    (u.row t).tokenHash = t.tokenHash := by
  cases u <;> rfl

/-! ## A write and a lock -/

section
variable {ρ κ : Type} [DecidableEq κ] {key : ρ → κ} {rows rows' : List ρ} {a : ρ} {k : κ}

/-- Two tables that agree on a key agree on it after the same insert. -/
theorem lookup_append_congr (h : lookup key rows' k = lookup key rows k) :
    lookup key (rows' ++ [a]) k = lookup key (rows ++ [a]) k := by
  rw [lookup_append, lookup_append, h]

/-- Two tables that agree on a key agree on it after the same update. -/
theorem lookup_modify_congr {g : ρ → ρ} (hg : ∀ r, key (g r) = key r) {k' : κ}
    (h : lookup key rows' k = lookup key rows k) :
    lookup key (modify key rows' k' g) k = lookup key (modify key rows k' g) k := by
  rw [lookup_modify hg, lookup_modify hg, h]

/-- A new row without the property does not make it hold of some row. -/
theorem any_append_false {p : ρ → Bool} (h : p a = false) :
    (rows ++ [a]).any p = rows.any p := by
  simp [h]

/-- Two tables that agree on a property of some row agree after the same insert. -/
theorem any_append_congr {p : ρ → Bool} (h : rows'.any p = rows.any p) :
    (rows' ++ [a]).any p = (rows ++ [a]).any p := by
  rw [List.any_append, List.any_append, h]

/-- They agree after the same update, if it does not touch the property. -/
theorem any_modify_congr {p : ρ → Bool} {g : ρ → ρ} (hp : ∀ r, p (g r) = p r)
    (h : rows'.any p = rows.any p) :
    (modify key rows' k g).any p = (modify key rows k g).any p := by
  rw [any_modify hp, any_modify hp, h]

/-- They agree on some columns of the selected rows after an update of other columns. -/
theorem map_filter_modify_congr {β : Type} {p : ρ → Bool} {c : ρ → β} {g : ρ → ρ}
    (hp : ∀ r, p (g r) = p r) (hc : ∀ r, c (g r) = c r)
    (h : (rows'.filter p).map c = (rows.filter p).map c) :
    ((modify key rows' k g).filter p).map c = ((modify key rows k g).filter p).map c := by
  rw [map_filter_modify hp hc, map_filter_modify hp hc, h]

end

/-! ### One table under a write

`column` is what a lock protects of the table: the row with a key, or whether a key is taken. -/

section
variable {β : Type} {s s' : Db} {w : Write}

/-- A write keeps a column of `users` if the user that it inserts does. -/
theorem users_kept (column : List User → β)
    (hinsert : ∀ u, w = .insertUser u → column (s.users ++ [u]) = column s.users) :
    column (s.apply w).users = column s.users := by
  cases w with
  | insertUser u => exact hinsert u rfl
  | _ => rfl

/-- A write keeps a column of `accounts` if the account that it inserts does. -/
theorem accounts_kept (column : List Account → β)
    (hinsert : ∀ a, w = .insertAccount a → column (s.accounts ++ [a]) = column s.accounts) :
    column (s.apply w).accounts = column s.accounts := by
  cases w with
  | insertAccount a => exact hinsert a rfl
  | _ => rfl

/-- A write keeps a column of `transactions` if the journal row that it inserts does. -/
theorem transactions_kept (column : List Transaction → β)
    (hinsert : ∀ t, w = .insertTransaction t →
      column (s.transactions ++ [t]) = column s.transactions) :
    column (s.apply w).transactions = column s.transactions := by
  cases w with
  | insertTransaction t => exact hinsert t rfl
  | _ => rfl

/-- A write keeps a column of `entries` if the entry that it inserts does. -/
theorem entries_kept (column : List Entry → β)
    (hinsert : ∀ e, w = .insertEntry e → column (s.entries ++ [e]) = column s.entries) :
    column (s.apply w).entries = column s.entries := by
  cases w with
  | insertEntry e => exact hinsert e rfl
  | _ => rfl

/-- A write keeps a column of `fairness_chains` if the chain that it inserts does. -/
theorem chains_kept (column : List FairnessChain → β)
    (hinsert : ∀ c, w = .insertChain c → column (s.chains ++ [c]) = column s.chains) :
    column (s.apply w).chains = column s.chains := by
  cases w with
  | insertChain c => exact hinsert c rfl
  | _ => rfl

/-- A write keeps a column of `balances` if the account that it opens does, and the row that it
adds to. -/
theorem balances_kept (column : List Balance → β)
    (hinsert : ∀ a, w = .insertAccount a → column (s.balances ++ [⟨a.id, 0⟩]) = column s.balances)
    (hupdate : ∀ id amount, w = .addBalance id amount →
      column (modify Balance.accountId s.balances id (Balance.add amount)) = column s.balances) :
    column (s.apply w).balances = column s.balances := by
  cases w with
  | insertAccount a => exact hinsert a rfl
  | addBalance id amount => exact hupdate id amount rfl
  | _ => rfl

/-- A write keeps a column of `rounds` if its insert and its update of a round do. -/
theorem rounds_kept (column : List Round → β)
    (hinsert : ∀ r, w = .insertRound r → column (s.rounds ++ [r]) = column s.rounds)
    (hupdate : ∀ id u, w = .updateRound id u →
      column (modify Round.id s.rounds id (RoundUpdate.row u)) = column s.rounds) :
    column (s.apply w).rounds = column s.rounds := by
  cases w with
  | insertRound r => exact hinsert r rfl
  | updateRound id u => exact hupdate id u rfl
  | _ => rfl

/-- A write keeps a column of `bets` if its insert and its update of a bet do. -/
theorem bets_kept (column : List Bet → β)
    (hinsert : ∀ b, w = .insertBet b → column (s.bets ++ [b]) = column s.bets)
    (hupdate : ∀ id u, w = .updateBet id u →
      column (modify Bet.id s.bets id (BetUpdate.row u)) = column s.bets) :
    column (s.apply w).bets = column s.bets := by
  cases w with
  | insertBet b => exact hinsert b rfl
  | updateBet id u => exact hupdate id u rfl
  | _ => rfl

/-- A write keeps a column of `refresh_tokens` if its insert and its update of a token do. -/
theorem tokens_kept (column : List RefreshToken → β)
    (hinsert : ∀ t, w = .insertToken t → column (s.tokens ++ [t]) = column s.tokens)
    (hupdate : ∀ id u, w = .updateToken id u →
      column (modify RefreshToken.id s.tokens id (TokenUpdate.row u)) = column s.tokens) :
    column (s.apply w).tokens = column s.tokens := by
  cases w with
  | insertToken t => exact hinsert t rfl
  | updateToken id u => exact hupdate id u rfl
  | _ => rfl

end

/-- No lock that the write is made under conflicts with this one. -/
def Write.Spares (w : Write) (k : LockKey) (m : LockMode) : Prop :=
  ∀ n ∈ needs w, n.1 = k → n.2.conflicts m = false

/-- Such a write is not made under the exclusive lock of that key. -/
theorem Write.Spares.not_exclusive {w : Write} {k : LockKey} {m : LockMode} (h : w.Spares k m) :
    (k, .exclusive) ∉ needs w :=
  fun hmem => by simpa using h _ hmem rfl

/-- The balance of an account stays, and the account too: it is opened under the same lock. -/
theorem Same.apply_balance {id : Uuid} {m : LockMode} {s : Db} {w : Write}
    (h : w.Spares (.balance id) m) : Same (.balance id) m s (s.apply w) := by
  have hnot := h.not_exclusive
  refine ⟨balances_kept (lookup Balance.accountId · id) (fun a hw => lookup_append_ne fun hid =>
    hnot ?_) fun id' amount hw => lookup_modify_ne (Balance.add_accountId _) fun hid => hnot ?_,
    accounts_kept (lookup Account.id · id) fun a hw => lookup_append_ne fun hid => hnot ?_⟩
  · simp [hw, needs, ← hid]
  · simp [hw, needs, hid]
  · simp [hw, needs, hid]

/-- A transaction of the journal stays, and the entries that it has. -/
theorem Same.apply_transaction {id : Uuid} {m : LockMode} {s : Db} {w : Write}
    (h : w.Spares (.transaction id) m) : Same (.transaction id) m s (s.apply w) := by
  have hnot := h.not_exclusive
  refine ⟨transactions_kept (List.any · fun t => t.id == id) fun t hw =>
    any_append_false (beq_eq_false_iff_ne.2 fun hid => hnot ?_),
    entries_kept (List.filter (fun e => e.transactionId == id)) fun e hw => ?_⟩
  · simp [hw, needs, hid]
  · have hne : e.transactionId ≠ id := fun hid => hnot (by simp [hw, needs, hid])
    simp [hne]

/-- A round stays.  A bet is inserted under a shared lock on its round, which an exclusive one keeps
out. -/
theorem Same.apply_round {id : Uuid} {m : LockMode} {s : Db} {w : Write}
    (h : w.Spares (.round id) m) : Same (.round id) m s (s.apply w) := by
  have hnot := h.not_exclusive
  refine ⟨rounds_kept (lookup Round.id · id) (fun r hw => lookup_append_ne fun hid => hnot ?_)
    fun id' u hw => lookup_modify_ne (RoundUpdate.row_id _) fun hid => hnot ?_, fun hm => ?_⟩
  · simp [hw, needs, hid]
  · simp [hw, needs, hid]
  · refine bets_kept (fun rows : List Bet => (rows.filter fun b => b.roundId == id).map Bet.id)
      (fun b hw => ?_) fun id' u hw => map_filter_modify (g := u.row) (fun _ => rfl) fun _ => rfl
    have hne : b.roundId ≠ id := fun hid => by
      simpa [hm] using h (.round id, .share) (by simp [hw, needs, hid]) rfl
    simp [hne]

/-- A write keeps what a lock protects, if its own locks are compatible with it. -/
theorem Same.apply {k : LockKey} {m : LockMode} {s : Db} {w : Write}
    (h : ∀ n ∈ needs w, n.1 = k → n.2.conflicts m = false) : Same k m s (s.apply w) := by
  have hfree : w.Spares k m := h
  have hnot := hfree.not_exclusive
  cases k with
  | user id =>
    refine users_kept (lookup User.id · id) fun u hw => lookup_append_ne fun hid => hnot ?_
    simp [hw, needs, hid]
  | userEmail email =>
    refine users_kept (List.any · fun u => u.email.lower == email) fun u hw =>
      any_append_false (beq_eq_false_iff_ne.2 fun hid => hnot ?_)
    simp [hw, needs, hid]
  | account id =>
    refine accounts_kept (lookup Account.id · id) fun a hw => lookup_append_ne fun hid => hnot ?_
    simp [hw, needs, hid]
  | accountKey key =>
    refine accounts_kept (lookup Account.key · key) fun a hw => lookup_append_ne fun hid => hnot ?_
    simp [hw, needs, hid]
  | accountOwner owner =>
    refine accounts_kept (List.any · fun a => a.ownerUserId == some owner) fun a hw =>
      any_append_false (beq_eq_false_iff_ne.2 fun hid => hnot ?_)
    simp [hw, needs, hid]
  | accountSystemKind kind =>
    refine accounts_kept (List.any · fun a => a.ownerUserId == none && a.kind == kind) fun a hw =>
      any_append_false (Bool.eq_false_iff.2 fun hid => hnot ?_)
    rw [Bool.and_eq_true, beq_iff_eq, beq_iff_eq] at hid
    simp [hw, needs, hid.1, hid.2]
  | balance id => exact Same.apply_balance h
  | transaction id => exact Same.apply_transaction h
  | round id => exact Same.apply_round h
  | roundNonce nonce =>
    refine rounds_kept (List.any · fun r => r.nonce == nonce) (fun r hw =>
      any_append_false (beq_eq_false_iff_ne.2 fun hid => hnot ?_))
      fun id' u hw => any_modify fun _ => rfl
    simp [hw, needs, hid]
  | liveRound game =>
    refine rounds_kept (fun rows : List Round => (rows.filter fun r => r.game == game).map Round.id)
      (fun r hw => ?_) fun id' u hw => map_filter_modify (g := u.row) (fun _ => rfl) fun _ => rfl
    have hne : r.game ≠ game := fun hid => hnot (by simp [hw, needs, hid])
    simp [hne]
  | chainPosition chainId index =>
    refine rounds_kept
      (List.any · fun r => r.chainId == some chainId && r.chainIndex == some index)
      (fun r hw => any_append_false (Bool.eq_false_iff.2 fun hid => hnot ?_))
      fun id' u hw => any_modify fun _ => rfl
    rw [Bool.and_eq_true, beq_iff_eq, beq_iff_eq] at hid
    simp [hw, needs, hid.1, hid.2]
  | bet id =>
    refine bets_kept (lookup Bet.id · id) (fun b hw => lookup_append_ne fun hid => hnot ?_)
      fun id' u hw => lookup_modify_ne (BetUpdate.row_id _) fun hid => hnot ?_
    · simp [hw, needs, hid]
    · simp [hw, needs, hid]
  | betIdempotency userId key =>
    refine bets_kept (List.any · fun b => b.userId == userId && b.idempotencyKey == key)
      (fun b hw => any_append_false (Bool.eq_false_iff.2 fun hid => hnot ?_))
      fun id' u hw => any_modify fun _ => rfl
    rw [Bool.and_eq_true, beq_iff_eq, beq_iff_eq] at hid
    simp [hw, needs, hid.1, hid.2]
  | chain id =>
    refine chains_kept (lookup FairnessChain.id · id) fun c hw => lookup_append_ne fun hid => hnot ?_
    simp [hw, needs, hid]
  | chainFirstNonce nonce =>
    refine chains_kept (List.any · fun c => c.firstNonce == nonce) fun c hw =>
      any_append_false (beq_eq_false_iff_ne.2 fun hid => hnot ?_)
    simp [hw, needs, hid]
  | token id =>
    refine tokens_kept (lookup RefreshToken.id · id) (fun t hw => lookup_append_ne fun hid =>
      hnot ?_) fun id' u hw => lookup_modify_ne (TokenUpdate.row_id _) fun hid => hnot ?_
    · simp [hw, needs, hid]
    · simp [hw, needs, hid]
  | tokenHash hash =>
    refine tokens_kept (List.any · fun t => t.tokenHash == hash) (fun t hw =>
      any_append_false (beq_eq_false_iff_ne.2 fun hid => hnot ?_))
      fun id' u hw => any_modify fun _ => by simp
    simp [hw, needs, hid]

/-! ### One table of two states under the same write -/

section
variable {β : Type} {s s' : Db} {w : Write}

/-- A write keeps a column of `users` the same in two states, if inserting a user does. -/
theorem users_congr (column : List User → β)
    (hinsert : ∀ u, column s'.users = column s.users →
      column (s'.users ++ [u]) = column (s.users ++ [u]))
    (h : column s'.users = column s.users) :
    column (s'.apply w).users = column (s.apply w).users := by
  cases w with
  | insertUser u => exact hinsert u h
  | _ => exact h

/-- A write keeps a column of `accounts` the same in two states, if inserting an account does. -/
theorem accounts_congr (column : List Account → β)
    (hinsert : ∀ a, column s'.accounts = column s.accounts →
      column (s'.accounts ++ [a]) = column (s.accounts ++ [a]))
    (h : column s'.accounts = column s.accounts) :
    column (s'.apply w).accounts = column (s.apply w).accounts := by
  cases w with
  | insertAccount a => exact hinsert a h
  | _ => exact h

/-- A write keeps a column of `fairness_chains` the same, if inserting a chain does. -/
theorem chains_congr (column : List FairnessChain → β)
    (hinsert : ∀ c, column s'.chains = column s.chains →
      column (s'.chains ++ [c]) = column (s.chains ++ [c]))
    (h : column s'.chains = column s.chains) :
    column (s'.apply w).chains = column (s.apply w).chains := by
  cases w with
  | insertChain c => exact hinsert c h
  | _ => exact h

/-- A write keeps a column of `rounds` the same, if inserting and updating a round do. -/
theorem rounds_congr (column : List Round → β)
    (hinsert : ∀ r, column s'.rounds = column s.rounds →
      column (s'.rounds ++ [r]) = column (s.rounds ++ [r]))
    (hupdate : ∀ id (u : RoundUpdate), column s'.rounds = column s.rounds →
      column (modify Round.id s'.rounds id u.row) = column (modify Round.id s.rounds id u.row))
    (h : column s'.rounds = column s.rounds) :
    column (s'.apply w).rounds = column (s.apply w).rounds := by
  cases w with
  | insertRound r => exact hinsert r h
  | updateRound id u => exact hupdate id u h
  | _ => exact h

/-- A write keeps a column of `bets` the same, if inserting and updating a bet do. -/
theorem bets_congr (column : List Bet → β)
    (hinsert : ∀ b, column s'.bets = column s.bets →
      column (s'.bets ++ [b]) = column (s.bets ++ [b]))
    (hupdate : ∀ id (u : BetUpdate), column s'.bets = column s.bets →
      column (modify Bet.id s'.bets id u.row) = column (modify Bet.id s.bets id u.row))
    (h : column s'.bets = column s.bets) :
    column (s'.apply w).bets = column (s.apply w).bets := by
  cases w with
  | insertBet b => exact hinsert b h
  | updateBet id u => exact hupdate id u h
  | _ => exact h

/-- A write keeps a column of `refresh_tokens` the same, if inserting and updating a token do. -/
theorem tokens_congr (column : List RefreshToken → β)
    (hinsert : ∀ t, column s'.tokens = column s.tokens →
      column (s'.tokens ++ [t]) = column (s.tokens ++ [t]))
    (hupdate : ∀ id (u : TokenUpdate), column s'.tokens = column s.tokens →
      column (modify RefreshToken.id s'.tokens id u.row) =
        column (modify RefreshToken.id s.tokens id u.row))
    (h : column s'.tokens = column s.tokens) :
    column (s'.apply w).tokens = column (s.apply w).tokens := by
  cases w with
  | insertToken t => exact hinsert t h
  | updateToken id u => exact hupdate id u h
  | _ => exact h

/-- Two states that agree on a balance and its account agree on them after the same write. -/
theorem Same.congr_balance {id : Uuid} {m : LockMode} (h : Same (.balance id) m s s') :
    Same (.balance id) m (s.apply w) (s'.apply w) := by
  refine ⟨?_, accounts_congr (lookup Account.id · id) (fun _ => lookup_append_congr) h.2⟩
  have hbalance : lookup Balance.accountId s'.balances id = lookup Balance.accountId s.balances id :=
    h.1
  unfold Db.balance
  rw [Db.apply_balances, Db.apply_balances]
  split
  · exact lookup_append_congr hbalance
  · exact lookup_modify_congr (Balance.add_accountId _) hbalance
  · exact hbalance

/-- Two states that agree on a journal row and its entries agree on them after the same write. -/
theorem Same.congr_transaction {id : Uuid} {m : LockMode} (h : Same (.transaction id) m s s') :
    Same (.transaction id) m (s.apply w) (s'.apply w) := by
  simp only [Same, Db.postings] at h ⊢
  rw [Db.apply_transactions, Db.apply_transactions, Db.apply_entries, Db.apply_entries]
  refine ⟨?_, ?_⟩
  · split
    · exact any_append_congr h.1
    · exact h.1
  · split
    · rw [List.filter_append, List.filter_append, h.2]
    · exact h.2

/-- Two states that agree on a round and its bets agree on them after the same write. -/
theorem Same.congr_round {id : Uuid} {m : LockMode} (h : Same (.round id) m s s') :
    Same (.round id) m (s.apply w) (s'.apply w) := by
  refine ⟨rounds_congr (lookup Round.id · id) (fun _ => lookup_append_congr)
    (fun _ u => lookup_modify_congr (RoundUpdate.row_id u)) h.1, fun hm => ?_⟩
  refine bets_congr (fun rows : List Bet => (rows.filter fun b => b.roundId == id).map Bet.id)
    (fun b hbets => ?_) (fun _ u => ?_) ?_
  · rw [List.filter_append, List.filter_append, List.map_append, List.map_append, hbets]
  · exact map_filter_modify_congr (g := u.row) (fun _ => rfl) fun _ => rfl
  · exact h.2 hm

end

/-- The same write keeps two states the same. -/
theorem Same.congr {k : LockKey} {m : LockMode} {s s' : Db} (w : Write) (h : Same k m s s') :
    Same k m (s.apply w) (s'.apply w) := by
  cases k with
  | user id => exact users_congr (lookup User.id · id) (fun _ => lookup_append_congr) h
  | userEmail email =>
    exact users_congr (List.any · fun u => u.email.lower == email) (fun _ => any_append_congr) h
  | account id => exact accounts_congr (lookup Account.id · id) (fun _ => lookup_append_congr) h
  | accountKey key =>
    exact accounts_congr (lookup Account.key · key) (fun _ => lookup_append_congr) h
  | accountOwner owner =>
    exact accounts_congr (List.any · fun a => a.ownerUserId == some owner)
      (fun _ => any_append_congr) h
  | accountSystemKind kind =>
    exact accounts_congr (List.any · fun a => a.ownerUserId == none && a.kind == kind)
      (fun _ => any_append_congr) h
  | balance id => exact Same.congr_balance h
  | transaction id => exact Same.congr_transaction h
  | round id => exact Same.congr_round h
  | roundNonce nonce =>
    exact rounds_congr (List.any · fun r => r.nonce == nonce) (fun _ => any_append_congr)
      (fun _ u => any_modify_congr (g := u.row) fun _ => rfl) h
  | liveRound game =>
    refine rounds_congr (fun rows : List Round => (rows.filter fun r => r.game == game).map Round.id)
      (fun r hrounds => ?_) (fun _ u => ?_) ?_
    · rw [List.filter_append, List.filter_append, List.map_append, List.map_append, hrounds]
    · exact map_filter_modify_congr (g := u.row) (fun _ => rfl) fun _ => rfl
    · exact h
  | chainPosition chainId index =>
    exact rounds_congr
      (List.any · fun r => r.chainId == some chainId && r.chainIndex == some index)
      (fun _ => any_append_congr) (fun _ u => any_modify_congr (g := u.row) fun _ => rfl) h
  | bet id =>
    exact bets_congr (lookup Bet.id · id) (fun _ => lookup_append_congr)
      (fun _ u => lookup_modify_congr (BetUpdate.row_id u)) h
  | betIdempotency userId key =>
    exact bets_congr (List.any · fun b => b.userId == userId && b.idempotencyKey == key)
      (fun _ => any_append_congr) (fun _ u => any_modify_congr (g := u.row) fun _ => rfl) h
  | chain id => exact chains_congr (lookup FairnessChain.id · id) (fun _ => lookup_append_congr) h
  | chainFirstNonce nonce =>
    exact chains_congr (List.any · fun c => c.firstNonce == nonce) (fun _ => any_append_congr) h
  | token id =>
    exact tokens_congr (lookup RefreshToken.id · id) (fun _ => lookup_append_congr)
      (fun _ u => lookup_modify_congr (TokenUpdate.row_id u)) h
  | tokenHash hash =>
    exact tokens_congr (List.any · fun t => t.tokenHash == hash) (fun _ => any_append_congr)
      (fun _ u => any_modify_congr (g := u.row) fun _ => by simp) h

/-! ## Growth -/

/-- What no write undoes: rows are only added, and their fixed columns stay. -/
structure Grows (s s' : Db) : Prop where
  users : s.users <+: s'.users
  accounts : s.accounts <+: s'.accounts
  transactions : s.transactions <+: s'.transactions
  entries : s.entries <+: s'.entries
  chains : s.chains <+: s'.chains
  balances : s.balances.map Balance.accountId <+: s'.balances.map Balance.accountId
  round : ∀ {id row}, s.round id = some row →
    ∃ row', s'.round id = some row' ∧ row'.core = row.core
  bet : ∀ {id row}, s.bet id = some row → ∃ row', s'.bet id = some row' ∧ row'.core = row.core
  token : ∀ {id row}, s.token id = some row →
    ∃ row', s'.token id = some row' ∧ row'.core = row.core

/-- Nothing has been lost when nothing has happened. -/
theorem Grows.refl (s : Db) : Grows s s :=
  ⟨List.prefix_refl _, List.prefix_refl _, List.prefix_refl _, List.prefix_refl _,
    List.prefix_refl _, List.prefix_refl _, fun h => ⟨_, h, rfl⟩, fun h => ⟨_, h, rfl⟩, fun h => ⟨_, h, rfl⟩⟩

/-- Nothing is lost on the way from one state to a third. -/
theorem Grows.trans {s s' s'' : Db} (h : Grows s s') (h' : Grows s' s'') : Grows s s'' where
  users := h.users.trans h'.users
  accounts := h.accounts.trans h'.accounts
  transactions := h.transactions.trans h'.transactions
  entries := h.entries.trans h'.entries
  chains := h.chains.trans h'.chains
  balances := h.balances.trans h'.balances
  round hr := by
    obtain ⟨row', hr', hcore⟩ := h.round hr
    obtain ⟨row'', hr'', hcore'⟩ := h'.round hr'
    exact ⟨row'', hr'', hcore'.trans hcore⟩
  bet hb := by
    obtain ⟨row', hb', hcore⟩ := h.bet hb
    obtain ⟨row'', hb'', hcore'⟩ := h'.bet hb'
    exact ⟨row'', hb'', hcore'.trans hcore⟩
  token ht := by
    obtain ⟨row', ht', hcore⟩ := h.token ht
    obtain ⟨row'', ht'', hcore'⟩ := h'.token ht'
    exact ⟨row'', ht'', hcore'.trans hcore⟩

/-- A row found before a change of the table is found after it, its fixed columns the same. -/
theorem lookup_modify_core {ρ : Type} {key : ρ → Uuid} {core : ρ → ρ} {rows : List ρ} {g : ρ → ρ}
    {id k : Uuid} {row : ρ} (hkey : ∀ r, key (g r) = key r) (hcore : ∀ r, core (g r) = core r)
    (h : lookup key rows id = some row) :
    ∃ row', lookup key (modify key rows k g) id = some row' ∧ core row' = core row := by
  rw [lookup_modify hkey, h]
  split
  · exact ⟨g row, rfl, hcore row⟩
  · exact ⟨row, rfl, rfl⟩

/-- Every write lets the database grow. -/
theorem Grows.apply (s : Db) (w : Write) : Grows s (s.apply w) where
  users := by
    rw [Db.apply_users]
    split
    · exact List.prefix_append _ _
    · exact List.prefix_refl _
  accounts := by
    rw [Db.apply_accounts]
    split
    · exact List.prefix_append _ _
    · exact List.prefix_refl _
  transactions := by
    rw [Db.apply_transactions]
    split
    · exact List.prefix_append _ _
    · exact List.prefix_refl _
  entries := by
    rw [Db.apply_entries]
    split
    · exact List.prefix_append _ _
    · exact List.prefix_refl _
  chains := by
    rw [Db.apply_chains]
    split
    · exact List.prefix_append _ _
    · exact List.prefix_refl _
  balances := by
    rw [Db.apply_balances]
    split
    · rw [List.map_append]
      exact List.prefix_append _ _
    · rw [map_key_modify (Balance.add_accountId _)]
    · exact List.prefix_refl _
  round h := by
    unfold Db.round at h ⊢
    rw [Db.apply_rounds]
    split
    · exact ⟨_, lookup_append_of_some h _, rfl⟩
    · exact lookup_modify_core (RoundUpdate.row_id _) (RoundUpdate.row_core _) h
    · exact ⟨_, h, rfl⟩
  bet h := by
    unfold Db.bet at h ⊢
    rw [Db.apply_bets]
    split
    · exact ⟨_, lookup_append_of_some h _, rfl⟩
    · exact lookup_modify_core (BetUpdate.row_id _) (BetUpdate.row_core _) h
    · exact ⟨_, h, rfl⟩
  token h := by
    unfold Db.token at h ⊢
    rw [Db.apply_tokens]
    split
    · exact ⟨_, lookup_append_of_some h _, rfl⟩
    · exact lookup_modify_core (TokenUpdate.row_id _) (TokenUpdate.row_core _) h
    · exact ⟨_, h, rfl⟩

/-- No list of writes loses an account, a user, or a column that no `UPDATE` sets. -/
theorem Grows.applyAll (s : Db) (rows : List Write) : Grows s (database.applyAll s rows) := by
  induction rows generalizing s with
  | nil => exact Grows.refl s
  | cons w rows ih => exact (Grows.apply s w).trans (ih (s.apply w))

/-- An account stays where its key finds it. -/
theorem Grows.accountByKey {s s' : Db} (h : Grows s s') {key : AccountKey} {a : Account}
    (ha : s.accountByKey key = some a) : s'.accountByKey key = some a := by
  obtain ⟨more, hmore⟩ := h.accounts
  unfold Db.accountByKey at ha ⊢
  rw [← hmore]
  exact lookup_append_of_some ha more

/-! ## The counter of the entries -/

/-- The counter of the entries does not matter. -/
def Alike (s s' : Db) : Prop := { s with entrySeq := 0 } = { s' with entrySeq := 0 }

namespace Alike
variable {s s' s'' : Db}

/-- A state is like itself. -/
theorem refl (s : Db) : Alike s s := rfl

/-- Two states that are like a third are alike. -/
theorem trans (h : Alike s s') (h' : Alike s' s'') : Alike s s'' := Eq.trans h h'

/-- Drawing an id changes the counter only. -/
theorem draw (s : Db) : Alike s (s.apply .drawEntryId) := rfl

/-- The same tables, with another counter. -/
theorem eq (h : Alike s s') : s' = { s with entrySeq := s'.entrySeq } := by
  have hback := congrArg (fun t : Db => { t with entrySeq := s'.entrySeq }) h
  exact hback.symm

/-- The same write keeps two states alike, as no write reads the counter. -/
theorem apply (h : Alike s s') (w : Write) : Alike (s.apply w) (s'.apply w) := by
  rw [h.eq]
  cases w <;> rfl

/-- So does the same list of writes. -/
theorem applyAll (rows : List Write) {s s' : Db} (h : Alike s s') :
    Alike (database.applyAll s rows) (database.applyAll s' rows) := by
  induction rows generalizing s s' with
  | nil => exact h
  | cons w rows ih => exact ih (h.apply w)

theorem account (h : Alike s s') (id : Uuid) : s'.account id = s.account id :=
  (congrArg (fun t : Db => t.account id) h).symm

theorem balance (h : Alike s s') (id : Uuid) : s'.balance id = s.balance id :=
  (congrArg (fun t : Db => t.balance id) h).symm

theorem balanceOf (h : Alike s s') (id : Uuid) : s'.balanceOf id = s.balanceOf id :=
  (congrArg (fun t : Db => t.balanceOf id) h).symm

theorem transactions (h : Alike s s') : s'.transactions = s.transactions :=
  (congrArg Db.transactions h).symm

theorem entries (h : Alike s s') : s'.entries = s.entries :=
  (congrArg Db.entries h).symm

theorem balances (h : Alike s s') : s'.balances = s.balances :=
  (congrArg Db.balances h).symm

/-- Two states that are alike agree on what any lock protects. -/
theorem same (h : Alike s s') (k : LockKey) (m : LockMode) : Same k m s s' := by
  rw [h.eq]
  have hsame := Same.refl k m s
  cases k <;> exact hsame

/-- Nothing is lost between two states that are alike. -/
theorem grows (h : Alike s s') : Grows s s' := by
  rw [h.eq]
  exact { Grows.refl s with }

end Alike

end Tessera
