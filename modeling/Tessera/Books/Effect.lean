import Tessera.Database.Isolation
import Tessera.Ledger.Journal

/-!
# What a transaction does to the books

The abstract layer over the tables: a committed transaction is a list of a few kinds of effect,
each a bet row together with the posting that goes with it.  Nothing here says how the services
arrive at an effect; that is what the rules for their programs establish.

* `Effect`, `Effect.rows` — the kinds of effect, and the row writes of each;
* `Effect.Enabled` — the circumstances in which an effect may happen;
* `Done` — a list of effects, each enabled where it happens.
-/

namespace Tessera

open Relational Transactions

/-- One thing that a transaction does to the books. -/
inductive Effect
  /-- A user with a wallet, credited with the signup grant. -/
  | enroll (u : User) (a : Account) (p : Posted)
  /-- A bet, its stake moved into escrow. -/
  | place (b : Bet) (p : Posted)
  /-- A bet that stops being active, its stake moved out of escrow. -/
  | close (id : Uuid) (u : BetUpdate) (p : Posted)
  /-- A round that changes its status. -/
  | advance (id : Uuid) (u : RoundUpdate)
  /-- A new round. -/
  | launch (r : Round)
  /-- A write that the books do not depend on. -/
  | aside (w : Write)
  deriving DecidableEq

/-- The row writes of an effect. -/
def Effect.rows : Effect → List Write
  | .enroll u a p => .insertUser u :: .insertAccount a :: p.rows
  | .place b p => .insertBet b :: p.rows
  | .close id u p => .updateBet id u :: p.rows
  | .advance id u => [.updateRound id u]
  | .launch r => [.insertRound r]
  | .aside w => [w]

/-- A round after an update. -/
theorem Db.round_update (s : Db) (id id' : Uuid) (u : RoundUpdate) :
    (s.apply (.updateRound id u)).round id' =
      if id' = id then (s.round id').map u.row else s.round id' :=
  lookup_modify (RoundUpdate.row_id u) id'

/-- The tables after an effect. -/
def Effect.after (e : Effect) (s : Db) : Db := database.applyAll s e.rows

/-- Writes of tokens, chains and notifications. -/
def Write.isAside : Write → Bool
  | .insertChain _ | .insertToken _ | .updateToken _ _ | .notify _ => true
  | _ => false

/-- The kind of journal row that a bet leaves ACTIVE with. -/
def BetStatus.settlement : BetStatus → Option TransactionKind
  | .ACTIVE => none
  | .WON => some .BET_CASHOUT
  | .LOST => some .BET_LOST
  | .VOIDED => some .ROUND_VOID_REFUND

/-- A journal row that the books have not seen, with its entries. -/
structure Posted.New (p : Posted) (s : Db) (kind : TransactionKind) (reference : Reference) :
    Prop where
  matched : p.Matches
  fresh : (s.transactions.any fun t => t.id == p.transaction.id) = false
  kind : p.transaction.kind = kind
  reference : p.transaction.reference = some reference

/-- The wallet of a user. -/
def Db.walletOf (s : Db) (userId : Uuid) : Option Uuid :=
  (s.accountByKey (walletKey userId)).map Account.id

/-- A user that registers with a grant. -/
structure Enrolls (config : Config) (u : User) (a : Account) (p : Posted) (s : Db) : Prop where
  user : s.user u.id = none
  account : s.account a.id = none
  key : s.accountByKey a.key = none
  wallet : a.kind = .WALLET ∧ a.key = walletKey u.id
  posted : p.New s .SIGNUP_GRANT ⟨"user", u.id⟩
  moves : ∀ id, net p.postings id =
    (if id = a.id then config.signupGrantMinor else 0) -
      (if id = mintId then config.signupGrantMinor else 0)
  legs : p.postings.map (fun q => q.amount.minor) =
    [-config.signupGrantMinor, config.signupGrantMinor]

/-- A bet that is placed on an open round, with the funds for it. -/
structure Places (b : Bet) (p : Posted) (s : Db) : Prop where
  id : s.bet b.id = none
  key : (s.bets.any fun c => c.userId == b.userId && c.idempotencyKey == b.idempotencyKey) = false
  active : b.status = .ACTIVE
  payout : b.payoutMinor = none
  stake : 0 < b.stakeMinor.minor
  user : (s.user b.userId).isSome = true
  round : ∃ r, s.round b.roundId = some r ∧ r.status = .OPEN
  wallet : ∃ w, s.walletOf b.userId = some w ∧ b.stakeMinor.minor ≤ s.balanceOf w ∧
    ∀ id, net p.postings id =
      (if id = escrowId then b.stakeMinor.minor else 0) -
        (if id = w then b.stakeMinor.minor else 0)
  posted : p.New s .BET_PLACED ⟨"bet", b.id⟩

/-- An active bet that is won, lost or refunded. -/
structure Closes (id : Uuid) (u : BetUpdate) (p : Posted) (s : Db) : Prop where
  payout : 0 ≤ u.payoutMinor.minor
  refund : u.status = .VOIDED →
    ∀ b, s.bet id = some b → u.payoutMinor = b.stakeMinor
  bet : ∃ b, s.bet id = some b ∧ b.status = .ACTIVE ∧
    ∃ w, s.walletOf b.userId = some w ∧ ∀ id, net p.postings id =
      (if id = w then u.payoutMinor.minor else 0) -
        (if id = escrowId then b.stakeMinor.minor else 0) +
        (if id = houseId then b.stakeMinor.minor - u.payoutMinor.minor else 0)
  posted : ∃ kind, u.status.settlement = some kind ∧ p.New s kind ⟨"bet", id⟩

/-- No bet of the round is active. -/
def Db.NoneActive (s : Db) (roundId : Uuid) : Prop :=
  ∀ b ∈ s.bets, b.roundId = roundId → b.status ≠ .ACTIVE

/-- The rounds that are over. -/
def RoundStatus.isOver : RoundStatus → Bool
  | .SETTLED | .VOIDED => true
  | _ => false

/-- A round that moves on; it is over only when none of its bets is active. -/
structure Advances (id : Uuid) (u : RoundUpdate) (s : Db) : Prop where
  status : u.status ≠ .OPEN
  ends : u.status.isOver = true → s.NoneActive id

/-- When an effect may happen. -/
def Effect.Enabled (config : Config) : Effect → Db → Prop
  | .enroll u a p, s => 3 < a.id ∧ Enrolls config u a p s
  | .place b p, s => Places b p s
  | .close id u p, s => Closes id u p s
  | .advance id u, s => Advances id u s
  | .launch r, s => s.round r.id = none
  | .aside w, _ => w.isAside = true

/-- A list of effects, each enabled where it happens. -/
def Done (config : Config) : Db → List Effect → Prop
  | _, [] => True
  | s, e :: es => e.Enabled config s ∧ Done config (e.after s) es

/-- The row writes of a list of effects. -/
def rowsOf (es : List Effect) : List Write := es.flatMap Effect.rows

@[simp] theorem rowsOf_nil : rowsOf [] = [] := rfl

/-- The writes of two lists of effects, one after the other. -/
theorem rowsOf_append (es es' : List Effect) : rowsOf (es ++ es') = rowsOf es ++ rowsOf es' :=
  List.flatMap_append

/-- The writes of one more effect come last. -/
theorem rowsOf_snoc (es : List Effect) (e : Effect) : rowsOf (es ++ [e]) = rowsOf es ++ e.rows := by
  rw [rowsOf_append]
  simp [rowsOf]

/-- The writes of the first effect are made first. -/
theorem applyAll_rowsOf_cons (s : Db) (e : Effect) (es : List Effect) :
    database.applyAll s (rowsOf (e :: es)) = database.applyAll (e.after s) (rowsOf es) := by
  unfold rowsOf Effect.after
  rw [List.flatMap_cons, Database.applyAll_append]

/-- One more effect at the end. -/
theorem Done.snoc {config : Config} {s : Db} {es : List Effect} {e : Effect}
    (h : Done config s es) (he : e.Enabled config (database.applyAll s (rowsOf es))) :
    Done config s (es ++ [e]) := by
  induction es generalizing s with
  | nil => exact ⟨he, trivial⟩
  | cons e' es ih =>
    rw [applyAll_rowsOf_cons] at he
    exact ⟨h.1, ih h.2 he⟩

/-- A property kept by every enabled effect is kept by a list of them. -/
theorem Done.invariant {config : Config} {P : Db → Prop}
    (hstep : ∀ s (e : Effect), P s → e.Enabled config s → P (e.after s)) {s : Db} {es : List Effect}
    (h : Done config s es) (hs : P s) : P (database.applyAll s (rowsOf es)) := by
  induction es generalizing s with
  | nil => exact hs
  | cons e es ih =>
    rw [applyAll_rowsOf_cons]
    exact ih h.2 (hstep s e hs h.1)

end Tessera
