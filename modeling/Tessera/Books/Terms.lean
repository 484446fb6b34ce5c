import Tessera.Books.Discipline
import Tessera.Calls

/-!
# The terms of each call

What each call of the system may commit, what is true whenever it waits for a row, and what it
answers.

* `Waits` — how a bet that is placed, cashed out, settled or refunded comes to wait for a row;
* `Call.Does` — the effects that a call may commit;
* `Call.answer` — what is known of the answer;
* `terms` — the terms, with their laws.
-/

namespace Tessera

open Relational Transactions

/-! ## Waiting for a row -/

/-- The rows that a session holds are of the given kind. -/
def RowsWithin (f : Standing Db LockKey Write) (P : LockKey → Prop) : Prop :=
  ∀ h ∈ f.held, h.1.isRow = true → P h.1

/-- Rows within one set are within a larger one. -/
theorem RowsWithin.mono {f : Standing Db LockKey Write} {P P' : LockKey → Prop}
    (h : RowsWithin f P) (hP : ∀ k, P k → P' k) : RowsWithin f P' :=
  fun k hk hrow => hP k.1 (h k hk hrow)

/-- The round is a wheel that stops on a winning bet of the user, who is not paid yet. -/
def Db.OwesWinner (s : Db) (roundId userId : Uuid) : Prop :=
  ∃ b ∈ s.bets, b.roundId = roundId ∧ b.userId = userId ∧ b.status = .ACTIVE ∧
    ∃ row oddsBp, s.round roundId = some row ∧ row.game = .ROULETTE ∧
      b.winsAt (row.winningPocket.getD 0) = .ok (some oddsBp)

/-- The round has an active bet of the user. -/
def Db.OwesStake (s : Db) (roundId userId : Uuid) : Prop :=
  ∃ b ∈ s.bets, b.roundId = roundId ∧ b.userId = userId ∧ b.status = .ACTIVE

/-- The users that a call pays out to: the owner of the bet that is cashed out, the winners of a
round that is settled, everyone with an active bet on a round that is voided.  A tick may settle or
void any round. -/
def Call.pays (c : Call) (s : Db) (userId : Uuid) : Prop :=
  match c with
  | .cashOut input => input.userId = userId
  | .settleRound roundId => s.OwesWinner roundId userId
  | .voidRound roundId => s.OwesStake roundId userId
  | .tickGame _ => ∃ roundId, s.OwesWinner roundId userId ∨ s.OwesStake roundId userId
  | _ => False

/-- The rounds whose bets a call closes. -/
def Call.Closes (c : Call) (roundId : Uuid) : Prop :=
  match c with
  | .settleRound id | .voidRound id => id = roundId
  | .tickGame _ => True
  | _ => False

/-- How the money paths come to wait for a row that they do not hold yet. -/
inductive Waits : Call → Standing Db LockKey Write → LockKey → Db → Prop
  /-- For a round, with nothing held. -/
  | round {c f id s} : RowsWithin f (fun _ => False) → Waits c f (.round id) s
  /-- For the wallet, before the balance check of `placeBet`. -/
  | wallet {input : PlaceBetInput} {f w s} : s.walletOf input.userId = some w →
      RowsWithin f (· = .round input.roundId) → Waits (.placeBet input) f (.balance w) s
  /-- For the id of the bet that `placeBet` inserts. -/
  | fresh {input : PlaceBetInput} {f w id s} : s.walletOf input.userId = some w →
      RowsWithin f (fun k => k = .round input.roundId ∨ k = .balance w) →
      Waits (.placeBet input) f (.bet id) s
  /-- For escrow, the wallet already held. -/
  | stake {input : PlaceBetInput} {f w id s} : s.walletOf input.userId = some w →
      s.bet id = none →
      RowsWithin f (fun k => k = .round input.roundId ∨ k = .balance w ∨ k = .bet id) →
      Waits (.placeBet input) f (.balance escrowId) s
  /-- For the bet that is cashed out. -/
  | cashOut {input : CashOutInput} {f id s} : (s.bet id).isSome = true →
      RowsWithin f (fun _ => False) → Waits (.cashOut input) f (.bet id) s
  /-- For a bet on the round that is being closed. -/
  | bet {c roundId f id b s} : c.Closes roundId → s.bet id = some b →
      b.roundId = roundId → (.round roundId, .exclusive) ∈ f.held →
      RowsWithin f (fun k => k = .round roundId ∨
        ∃ id b, k = .bet id ∧ s.bet id = some b ∧ b.roundId = roundId) →
      Waits c f (.bet id) s
  /-- For escrow, with rounds and bets held. -/
  | escrow {c f s} : (∀ input, c ≠ .placeBet input) →
      RowsWithin f (fun k => (∃ id, k = .round id) ∨ ∃ id, k = .bet id) →
      Waits c f (.balance escrowId) s
  /-- For the house, escrow already held. -/
  | house {c f s} : (.balance escrowId, .exclusive) ∈ f.held → Waits c f (.balance houseId) s
  /-- For the wallet of a user who is paid, escrow already held. -/
  | payee {c f w userId s} : (.balance escrowId, .exclusive) ∈ f.held →
      s.walletOf userId = some w → c.pays s userId → Waits c f (.balance w) s

/-- The money paths: a bet is placed, cashed out, settled or refunded.  The engine settles and
voids rounds in its ticks. -/
def Call.isMoney : Call → Bool
  | .placeBet _ | .cashOut _ | .settleRound _ | .voidRound _ | .tickGame _ => true
  | _ => false

/-- What a call comes to wait for, another one may come to wait for that closes the same rounds and
pays the same users. -/
theorem Waits.weaken {c c' : Call} {f : Standing Db LockKey Write} {k : LockKey} {s : Db}
    (hplace : ∀ input, c ≠ .placeBet input) (hcash : ∀ input, c ≠ .cashOut input)
    (hplace' : ∀ input, c' ≠ .placeBet input)
    (hcloses : ∀ roundId, c.Closes roundId → c'.Closes roundId)
    (hpays : ∀ userId, c.pays s userId → c'.pays s userId) (h : Waits c f k s) :
    Waits c' f k s := by
  cases h with
  | round hrows => exact .round hrows
  | wallet _ _ => exact absurd rfl (hplace _)
  | fresh _ _ => exact absurd rfl (hplace _)
  | stake _ _ _ => exact absurd rfl (hplace _)
  | cashOut _ _ => exact absurd rfl (hcash _)
  | bet hcloses' hb hround hheld hrows => exact .bet (hcloses _ hcloses') hb hround hheld hrows
  | escrow _ hrows => exact .escrow hplace' hrows
  | house hheld => exact .house hheld
  | payee hheld hw hpays' => exact .payee hheld hw (hpays _ hpays')

/-- What is true whenever a call waits for a lock. -/
def Call.guard (c : Call) (f : Standing Db LockKey Write) (h : LockKey × LockMode) (s : Db) :
    Prop :=
  c.isMoney = true → h.1.isRow = true → (h.1, .exclusive) ∈ f.held ∨ Waits c f h.1 s

/-! ## What a call commits and answers -/

/-- The effects that a call may commit.  `placeBet` commits one bet, or nothing at all. -/
def Call.Does (c : Call) (es : List Effect) : Prop :=
  match c with
  | .placeBet input => es = [] ∨ ∃ b p e₁ e₂,
      es = [.place b p, .aside (.notify e₁), .aside (.notify e₂)] ∧
        b.userId = input.userId ∧ b.roundId = input.roundId ∧
        b.idempotencyKey = input.idempotencyKey ∧ b.stakeMinor.minor = input.stakeMinor
  | _ => True

/-- The trigger `assert_balance_non_negative` was not the one to reject. -/
def NotTrigger {α : Type} (r : Except AppError α) : Prop :=
  ∀ a kind n, r ≠ .error (.negativeBalance a kind n)

/-- The balance read under the lock of the wallet was below the stake. -/
def ShortRead (input : PlaceBetInput) (f : Standing Db LockKey Write) : Prop :=
  ∃ e ∈ f.log, ∃ w, e.key = some (.balance w) ∧ e.state.walletOf input.userId = some w ∧
    e.state.balanceOf w < input.stakeMinor

/-- A refusal for lack of funds, and the reading that explains it. -/
structure Refusal {α : Type} (input : PlaceBetInput) (r : Except AppError α)
    (f : Standing Db LockKey Write) : Prop where
  trigger : NotTrigger r
  short : ∀ available requested, r = .error (.insufficientFunds available requested) →
    ShortRead input f
  refused : ShortRead input f →
    r = .error .connectionLost ∨
      ∃ available requested, r = .error (.insufficientFunds available requested)

/-- What is known of the answer of a call. -/
def Call.answer (c : Call) : Post Db LockKey Write AppError Reply :=
  match c with
  | .placeBet input => fun r f _ => Refusal input r f
  | .cashOut _ | .settleRound _ | .voidRound _ | .tickGame _ => fun r _ _ => NotTrigger r
  | _ => fun _ _ _ => True

/-- The terms of a call. -/
def terms (config : Config) (c : Call) : Terms Db LockKey Write where
  commits s rows := ∃ es, rows = rowsOf es ∧ Done config s es ∧ c.Does es
  draws _ row := row = .drawNonce ∨ row = .drawEntryId
  guard := c.guard
  starts _ := True
  admits _ _ _ := True

/-- The sequences are no part of the books. -/
theorem sameBooks_draw {s : Db} {row : Write} (h : row = .drawNonce ∨ row = .drawEntryId) :
    SameBooks s (s.apply row) ∧ (s.apply row).rounds = s.rounds := by
  rcases h with rfl | rfl <;> exact ⟨⟨rfl, rfl, rfl, rfl, rfl, rfl⟩, rfl⟩

/-- What the terms allow keeps the books consistent and loses nothing. -/
theorem terms_lawful (config : Config) (c : Call) :
    (terms config c).Lawful database (books config) where
  commits_inv := by
    rintro s rows hs ⟨es, rfl, hdone, -⟩
    exact (hdone.keeps hs).1
  commits_grows := by
    rintro s rows hs ⟨es, rfl, hdone, -⟩
    exact (hdone.keeps hs).2
  draws_inv := by
    intro s row hs hrow
    obtain ⟨hsame, hrounds⟩ := sameBooks_draw hrow
    refine Consistent.sameBooks hs hsame fun b hb => ?_
    obtain ⟨r, hr, hover⟩ := (Consistent.fits hs b hb).round
    exact ⟨r, (congrArg (lookup Round.id · b.roundId) hrounds).trans hr, hover⟩
  draws_grows := by
    intro s row _ hrow
    obtain ⟨hsame, hrounds⟩ := sameBooks_draw hrow
    exact .of_eq (Grows.apply s row) hsame.bets hrounds
  draws_free := by
    rintro s row (rfl | rfl) <;> rfl

/-- The terms ask nothing of locks that are not on rows. -/
theorem terms_fair (config : Config) (c : Call) : Fair (terms config c) where
  guard _ _ _ hrow := fun _ hrow' => absurd hrow' (by simp [hrow])
  entryId _ := .inr rfl

/-- What is known of an answer does not depend on the state. -/
theorem answer_stable (config : Config) (c : Call) : c.answer.Stable (books config) := by
  intro r f s s' _ h
  cases c <;> exact h

/-- A call that loses its connection has answered as the terms allow. -/
theorem answer_lost (c : Call) (f : Standing Db LockKey Write) (s : Db) :
    c.answer (.error .connectionLost) f s := by
  cases c with
  | placeBet input => exact ⟨by simp [NotTrigger], by simp, fun _ => .inl rfl⟩
  | cashOut _ | settleRound _ | voidRound _ | tickGame _ => simp [NotTrigger, Call.answer]
  | _ => trivial

end Tessera
