import Tessera.Rounds.Told
import Tessera.Transactions.Dues

/-!
# What is called for, and what was heard

A change of a round or of a bet calls for an announcement.  What a state owes its listeners is what
has happened less what was announced, and every write changes it by what the write itself calls for.

* `Topic`, `Write.due` — what a write calls for, and what an announcement answers;
* `Db.owed` — what has happened to a bet and was not announced;
* `Timely`, `Effect.timely` — writes that come when they may;
* `Timely.owed` — what a transaction leaves owing;
* `Heard` — nothing is owed.

Source: `src/src/rounds/events/round-events.ts`.
-/

namespace Tessera

open Relational Transactions

/-- What an announcement is about. -/
inductive Topic
  | placed (betId : Uuid)
  | closed (betId : Uuid)
  | won (betId : Uuid)
  | moved (roundId : Uuid)
  | wallet (userId : Uuid)
  deriving DecidableEq

/-- One announcement that is called for. -/
def Topic.once (t : Topic) : Topic → ℤ := Pi.single t 1

/-- What a write calls for, less what it announces.  The settlement of a bet calls for the new
balance of its owner. -/
def Write.due : Write → Topic → ℤ
  | .insertBet b => (Topic.placed b.id).once + (Topic.wallet b.userId).once
  | .updateBet id u => (Topic.closed id).once + if u.status = .WON then (Topic.won id).once else 0
  | .insertRound r => (Topic.moved r.id).once
  | .updateRound id _ => (Topic.moved id).once
  | .notify (.betPlaced _ _ betId _ _ _) => -(Topic.placed betId).once
  | .notify (.betWon _ _ betId _ _ _ _ _) => -(Topic.won betId).once
  | .notify (.betSettled userId view) => (Topic.wallet userId).once - (Topic.closed view.id).once
  | .notify (.walletUpdated userId _) => -(Topic.wallet userId).once
  | .notify (.roundState roundId) => -(Topic.moved roundId).once
  | _ => 0

/-- What has happened to a bet. -/
def Topic.happened (s : Db) : Topic → Bool
  | .placed betId => (s.bet betId).isSome
  | .closed betId => (s.bet betId).any fun b => decide (b.status ≠ .ACTIVE)
  | .won betId => (s.bet betId).any fun b => decide (b.status = .WON)
  | .moved _ | .wallet _ => false

/-- The announcements of what has happened to a bet. -/
def Topic.announcedBy : Topic → RoundDomainEvent → Bool
  | .placed id, .betPlaced _ _ betId _ _ _ => betId == id
  | .closed id, .betSettled _ view => view.id == id
  | .won id, .betWon _ _ betId _ _ _ _ _ => betId == id
  | _, _ => false

/-- The topics of bets. -/
def Topic.ofBet : Topic → Bool
  | .placed _ | .closed _ | .won _ => true
  | .moved _ | .wallet _ => false

/-- What has happened and was not announced. -/
def Db.owed (s : Db) (t : Topic) : ℤ :=
  (t.happened s).toInt - s.delivered.countP t.announcedBy

/-- What happens to a bet is announced exactly once, and its settlement to its owner. -/
structure Heard (s : Db) : Prop where
  once : ∀ t : Topic, t.ofBet = true → s.owed t = 0
  owner : ∀ userId view, .betSettled userId view ∈ s.delivered →
    ∃ b, s.bet view.id = some b ∧ b.userId = userId

section
variable {w : Write} {t : Topic} {s s' : Db} {rows rows' : List Write}

/-- A write of another table calls for nothing. -/
theorem Write.due_eq_zero (hbets : w.table ≠ .bets) (hrounds : w.table ≠ .rounds)
    (hnotify : w.table ≠ .notifications) : w.due = 0 := by
  cases w with
  | insertBet b => exact absurd rfl hbets
  | updateBet id u => exact absurd rfl hbets
  | insertRound r => exact absurd rfl hrounds
  | updateRound id u => exact absurd rfl hrounds
  | notify e => exact absurd rfl hnotify
  | _ => rfl

/-- A notification counts for its own topic. -/
theorem Topic.once_apply (t t' : Topic) : t.once t' = if t = t' then 1 else 0 := by
  unfold Topic.once
  rw [Pi.single_apply]
  exact if_congr eq_comm rfl rfl

/-! ## Writes that come when they may -/

/-- A bet is placed once, and closed once after that. -/
def Write.Timely (s : Db) : Write → Prop
  | .insertBet b => s.bet b.id = none ∧ b.status = .ACTIVE
  | .updateBet id u => (∃ row, s.bet id = some row ∧ row.status = .ACTIVE) ∧ u.status ≠ .ACTIVE
  | _ => True

/-- Writes that come when they may, one after the other. -/
def Timely : Db → List Write → Prop
  | _, [] => True
  | s, w :: rows => w.Timely s ∧ Timely (s.apply w) rows

/-- Timely writes after timely ones. -/
theorem Timely.append (h : Timely s rows) (h' : Timely (database.applyAll s rows) rows') :
    Timely s (rows ++ rows') := by
  induction rows generalizing s with
  | nil => exact h'
  | cons w rows ih =>
    rw [Database.applyAll_cons] at h'
    exact ⟨h.1, ih h.2 h'⟩

/-- Writes that leave the bets alone are timely. -/
theorem timely_of_table (h : ∀ w ∈ rows, w.table ≠ .bets) : Timely s rows := by
  induction rows generalizing s with
  | nil => trivial
  | cons w rows ih =>
    obtain ⟨hw, hrest⟩ := List.forall_mem_cons.1 h
    refine ⟨?_, ih hrest⟩
    cases w with
    | insertBet b => exact absurd rfl hw
    | updateBet id u => exact absurd rfl hw
    | _ => trivial

/-- So are those of a posting. -/
theorem timely_posted {p : Posted} : Timely s p.rows := by
  refine timely_of_table fun w hw => ?_
  simp only [Posted.rows, List.mem_cons, List.mem_append, List.mem_map] at hw
  rcases hw with rfl | ⟨e, -, rfl⟩ | ⟨q, -, rfl⟩ <;> simp [Write.table]

/-- So are those of an effect that is enabled. -/
theorem Effect.timely {config : Config} {e : Effect} (he : e.Enabled config s) :
    Timely s e.rows := by
  cases e with
  | enroll u a p => exact ⟨trivial, trivial, timely_posted⟩
  | place b p => exact ⟨⟨he.id, he.active⟩, timely_posted⟩
  | close id u p =>
    obtain ⟨b, hb, hactive, -⟩ := he.bet
    obtain ⟨kind, hkind, -⟩ := he.posted
    refine ⟨⟨⟨b, hb, hactive⟩, fun heq => ?_⟩, timely_posted⟩
    rw [heq] at hkind
    cases hkind
  | advance id u => exact ⟨trivial, trivial⟩
  | launch r => exact ⟨trivial, trivial⟩
  | aside w =>
    have hw : w.isAside = true := he
    refine timely_of_table fun w' hw' => ?_
    rw [List.mem_singleton.1 hw']
    cases w with
    | insertBet b => cases hw
    | updateBet id u => cases hw
    | _ => simp [Write.table]

/-- So are those of several effects. -/
theorem Done.timely {config : Config} {es : List Effect} (h : Done config s es) :
    Timely s (rowsOf es) := by
  induction es generalizing s with
  | nil => trivial
  | cons e es ih => exact (Effect.timely h.1).append (ih h.2)

/-! ## What is owed -/

/-- What is owed depends on the bets and on what was delivered. -/
theorem Db.owed_of_eq (hbets : s'.bets = s.bets) (hdelivered : s'.delivered = s.delivered) :
    s'.owed t = s.owed t := by
  have hhappened : t.happened s' = t.happened s := by
    cases t <;> simp [Topic.happened, Db.bet, hbets]
  unfold Db.owed
  rw [hdelivered, hhappened]

/-- A notification answers what it is about. -/
theorem Db.owed_notify (ht : t.ofBet = true) (e : RoundDomainEvent) :
    (s.apply (.notify e)).owed t = s.owed t + (Write.notify e).due t := by
  have hhappened : t.happened (s.apply (.notify e)) = t.happened s := by cases t <;> rfl
  have hcount : ((s.delivered ++ [e]).countP t.announcedBy : ℤ) =
      s.delivered.countP t.announcedBy + if t.announcedBy e then 1 else 0 := by
    rw [List.countP_append, List.countP_singleton]
    push_cast
    rfl
  have hdue : (Write.notify e).due t = -if t.announcedBy e then 1 else 0 := by
    cases t with
    | moved id => cases ht
    | wallet id => cases ht
    | _ => cases e <;> simp [Write.due, Topic.once_apply, Topic.announcedBy]
  unfold Db.owed
  rw [hhappened, hdue]
  change _ - ((s.delivered ++ [e]).countP t.announcedBy : ℤ) = _
  rw [hcount]
  ring

/-- A new bet has been placed, and nothing else has happened to it. -/
theorem Db.owed_insertBet {b : Bet} (hnew : s.bet b.id = none) (hactive : b.status = .ACTIVE)
    (ht : t.ofBet = true) : (s.apply (.insertBet b)).owed t = s.owed t + (Write.insertBet b).due t := by
  have hbet : ∀ id, (s.apply (.insertBet b)).bet id = if b.id = id then some b else s.bet id := by
    intro id
    split
    case isTrue heq => exact heq ▸ lookup_append_new hnew
    case isFalse hne => exact lookup_append_ne hne
  have hhappened : (t.happened (s.apply (.insertBet b))).toInt =
      (t.happened s).toInt + (Write.insertBet b).due t := by
    cases t with
    | moved id => cases ht
    | wallet id => cases ht
    | _ id =>
      by_cases hid : b.id = id
      · subst hid
        simp [Topic.happened, hbet, hnew, hactive, Write.due, Topic.once_apply]
      · simp [Topic.happened, hbet, hid, Write.due, Topic.once_apply]
  unfold Db.owed
  rw [hhappened]
  change _ - (s.delivered.countP t.announcedBy : ℤ) = _
  ring

/-- An active bet that is closed has been closed, and won if that is how. -/
theorem Db.owed_updateBet {id : Uuid} {u : BetUpdate} {row : Bet} (hrow : s.bet id = some row)
    (hactive : row.status = .ACTIVE) (hclosed : u.status ≠ .ACTIVE) (ht : t.ofBet = true) :
    (s.apply (.updateBet id u)).owed t = s.owed t + (Write.updateBet id u).due t := by
  have hbet : ∀ id', (s.apply (.updateBet id u)).bet id' =
      if id = id' then some (u.row row) else s.bet id' := by
    intro id'
    split
    case isTrue heq =>
      subst heq
      exact lookup_modify_self (BetUpdate.row_id u) hrow
    case isFalse hne => exact lookup_modify_ne (BetUpdate.row_id u) (Ne.symm hne)
  have hhappened : (t.happened (s.apply (.updateBet id u))).toInt =
      (t.happened s).toInt + (Write.updateBet id u).due t := by
    cases t with
    | moved id => cases ht
    | wallet id => cases ht
    | _ id' =>
      by_cases hid : id = id'
      · subst hid
        by_cases hwon : u.status = .WON <;>
          simp [Topic.happened, hbet, hrow, hactive, hclosed, hwon, BetUpdate.row, Write.due,
            Topic.once_apply]
      · by_cases hwon : u.status = .WON <;>
          simp [Topic.happened, hbet, hid, hwon, Write.due, Topic.once_apply]
  unfold Db.owed
  rw [hhappened]
  change _ - (s.delivered.countP t.announcedBy : ℤ) = _
  ring

/-- A write that comes when it may changes what is owed by what it calls for. -/
theorem Write.Timely.owed (h : w.Timely s) (ht : t.ofBet = true) :
    (s.apply w).owed t = s.owed t + w.due t := by
  have haside : (s.apply w).bets = s.bets → (s.apply w).delivered = s.delivered → w.due t = 0 →
      (s.apply w).owed t = s.owed t + w.due t := by
    intro hbets hdelivered hdue
    rw [Db.owed_of_eq hbets hdelivered, hdue, add_zero]
  have hmoved : ∀ id, (Topic.moved id).once t = 0 := by
    intro id
    cases t with
    | moved id => cases ht
    | _ => simp [Topic.once_apply]
  cases w with
  | insertRound r => exact haside rfl rfl (hmoved r.id)
  | updateRound id u => exact haside rfl rfl (hmoved id)
  | insertBet b => exact Db.owed_insertBet h.1 h.2 ht
  | updateBet id u =>
    obtain ⟨⟨row, hrow, hactive⟩, hclosed⟩ := h
    exact Db.owed_updateBet hrow hactive hclosed ht
  | notify e => exact Db.owed_notify ht e
  | _ => exact haside rfl rfl rfl

/-- Writes that come when they may leave owing what they call for and do not announce. -/
theorem Timely.owed (h : Timely s rows) (ht : t.ofBet = true) :
    (database.applyAll s rows).owed t = s.owed t + tally Write.due rows t := by
  induction rows generalizing s with
  | nil => exact (add_zero _).symm
  | cons w rows ih =>
    have htally : tally Write.due (w :: rows) = w.due + tally Write.due rows := by simp [tally]
    have hrest : (database.applyAll (database.apply s w) rows).owed t = _ := ih h.2
    rw [Database.applyAll_cons, hrest, htally, Pi.add_apply, ← add_assoc]
    exact congrArg (· + _) (h.1.owed ht)

/-- What has been heard depends on the bets and the notifications only. -/
theorem Heard.of_eq (h : Heard s) (hbets : s'.bets = s.bets)
    (hdelivered : s'.delivered = s.delivered) : Heard s' := by
  refine ⟨fun t ht => (Db.owed_of_eq hbets hdelivered).trans (h.once t ht), ?_⟩
  intro userId view hview
  rw [hdelivered] at hview
  unfold Db.bet
  rw [hbets]
  exact h.owner userId view hview

/-- What is announced as it happens leaves nothing owed. -/
theorem Heard.after (h : Heard s) (hrows : Timely s rows)
    (htally : ∀ t : Topic, t.ofBet = true → tally Write.due rows t = 0)
    (howner : ∀ userId view, .notify (.betSettled userId view) ∈ rows →
      ∃ b, s.bet view.id = some b ∧ b.userId = userId)
    (hgrows : Grows s (database.applyAll s rows)) : Heard (database.applyAll s rows) where
  once t ht := by rw [hrows.owed ht, h.once t ht, htally t ht, add_zero]
  owner userId view hview := by
    have hold : ∃ b, s.bet view.id = some b ∧ b.userId = userId := by
      rcases (applyAll_delivered s rows).1 hview with hold | hnew
      · exact h.owner userId view hold
      · exact howner userId view hnew
    obtain ⟨b, hb, rfl⟩ := hold
    obtain ⟨b', hb', hcore⟩ := hgrows.bet hb
    have howner := congrArg Bet.userId hcore
    exact ⟨b', hb', howner⟩

end

end Tessera
