import Tessera.Rounds.Heard
import Tessera.Rounds.Safety
import Tessera.Rounds.Told

/-!
# Changes and their announcements

A change of a round or of a bet is announced in the transaction that makes it, so that nothing is
announced that was rolled back and nothing that was committed stays unannounced.  The opening of a
round is the exception: its row and its announcement are two transactions.

* `Discharges`, `announcedTerms` — what a call may commit;
* `Playing`, `wp_close_adds`, `wp_publishBetOutcome_adds` — a bet that is locked and active is
  closed, and announced;
* `wp_closeRound_adds` — bets that are closed one by one, and then their round;
* `call_announces` — what every call commits is announced;
* `RoundsTold` — what one step tells of the rounds;
* `reachable_heard`, `reachable_announced` — every run.

Source: `src/src/rounds/round-engine.service.ts`, `src/src/rounds/rounds.service.ts`,
`src/src/rounds/events/round-event-bus.service.ts` `publish`.
-/

namespace Tessera

open Relational Transactions Transactions.Program

/-- The settlement of a bet is announced to its owner. -/
def Addressed (s : Db) (w : Write) : Prop :=
  ∀ userId view, w = .notify (.betSettled userId view) →
    ∃ b, s.bet view.id = some b ∧ b.userId = userId

/-- A round is opened, or the opening of one that is there is announced. -/
def OpensRound (s : Db) (rows : List Write) : Prop :=
  (∃ r, rows = [.insertRound r]) ∨
    ∃ roundId, rows = [.notify (.roundState roundId)] ∧ (s.round roundId).isSome = true

/-- The calls that may open a round. -/
def Call.opens : Call → Prop
  | .openRoundIfDue _ | .tickGame _ => True
  | _ => False

/-- What a call commits is announced, and to whom it concerns. -/
def Discharges (c : Call) (s : Db) (rows : List Write) : Prop :=
  (tally Write.due rows = 0 ∨ c.opens ∧ OpensRound s rows) ∧ ∀ w ∈ rows, Addressed s w

/-- The terms of a call. -/
abbrev announcedTerms (c : Call) : Terms Db LockKey Write := .committing (Discharges c)

/-- The writes of a part that closes the bet `b`. -/
structure OfBet (b : Bet) (w : Write) : Prop where
  bets : w.table = .bets → ∃ u, w = .updateBet b.id u
  rounds : w.table ≠ .rounds
  settled : ∀ userId view, w = .notify (.betSettled userId view) →
    userId = b.userId ∧ view.id = b.id

section
variable {b : Bet} {w : Write} {s : Db} {rows rows' : List Write}

/-- An update of the bet is a write of the bet. -/
theorem ofBet_update {u : BetUpdate} : OfBet b (.updateBet b.id u) :=
  ⟨fun _ => ⟨u, rfl⟩, by simp [Write.table], fun _ _ h => by cases h⟩

/-- A notification, of this bet if it is of one that is settled. -/
theorem ofBet_notify {e : RoundDomainEvent}
    (h : ∀ userId view, e = .betSettled userId view → userId = b.userId ∧ view.id = b.id) :
    OfBet b (.notify e) where
  bets htable := by simp [Write.table] at htable
  rounds := by simp [Write.table]
  settled userId view heq := h userId view (by injection heq)

/-- A write of the ledger. -/
theorem ofBet_ledger (h : w.table ∈ [Table.ledger]) : OfBet b w ∧ w.due = 0 := by
  rw [List.mem_singleton] at h
  refine ⟨⟨?_, by simp [h], fun _ _ heq => ?_⟩,
    Write.due_eq_zero (by simp [h]) (by simp [h]) (by simp [h])⟩
  · rw [h]
    exact fun hbets => by cases hbets
  · rw [heq] at h
    cases h

/-- The writes of one bet leave the others as they were. -/
theorem bet_ofBet (h : ∀ w ∈ rows', OfBet b w) {id : Uuid} (hne : id ≠ b.id) :
    (database.applyAll s (rows ++ rows')).bet id = (database.applyAll s rows).bet id := by
  rw [Database.applyAll_append]
  generalize database.applyAll s rows = s'
  induction rows' generalizing s' with
  | nil => rfl
  | cons w rows' ih =>
    obtain ⟨hw, hrest⟩ := List.forall_mem_cons.1 h
    rw [Database.applyAll_cons, ih hrest]
    by_cases htable : w.table = .bets
    · obtain ⟨u, rfl⟩ := hw.bets htable
      exact lookup_modify_ne (BetUpdate.row_id u) hne
    · have hbets := applyAll_bets s' [w]
      rw [rowsOn_eq_nil fun w' hw' => by rw [List.mem_singleton.1 hw']; exact htable] at hbets
      exact congrArg (lookup Bet.id · id) hbets

end

/-! ## The rules -/

section
variable {R : Discipline Db LockKey Write} {c : Call}
variable {f f' : Standing Db LockKey Write} {s s' : Db} {α : Type} {b : Bet}

/-- A part that closes a bet adds nothing to what is called for. -/
abbrev Balances (R : Discipline Db LockKey Write) (b : Bet) (f : Standing Db LockKey Write)
    (s : Db) : Post Db LockKey Write AppError α :=
  Adds R (OfBet b) Write.due f s 0

/-- A bet that is locked and seen active. -/
structure Playing (b : Bet) (f : Standing Db LockKey Write) (s : Db) : Prop where
  locked : (.bet b.id, .exclusive) ∈ f.held
  active : ∃ row, (f.view database s).bet b.id = some row ∧ row.status = .ACTIVE

variable (hO : Overlay R (announcedTerms c))
include hO

/-- A part that writes nothing leaves the bet active. -/
theorem Playing.still (h : Playing b f s) (ho : Onward R (fun _ => False) f s f' s') :
    Playing b f' s' := by
  refine ⟨ho.kept h.locked, ?_⟩
  unfold Standing.view
  rw [ho.still, hO.bet_kept ho.rely h.locked]
  exact h.active

/-- What other bets are written leaves this one as it was. -/
theorem Playing.other (h : Playing b f s) {b' : Bet} (ho : Onward R (OfBet b') f s f' s')
    (hne : b.id ≠ b'.id) : Playing b f' s' := by
  refine ⟨ho.kept h.locked, ?_⟩
  obtain ⟨rows, hrows, hall⟩ := ho.pending
  unfold Standing.view
  rw [hrows, bet_ofBet hall hne, hO.bet_kept ho.rely h.locked]
  exact h.active

/-- A part that writes nothing but the ledger, before the rest. -/
theorem wp_thenLedger {β : Type} {p : Action β} {k : β → Action α} {d : Topic → ℤ}
    (hs : R.inv s) (hp : Touches [.ledger] p)
    (hk : ∀ a f' s', R.inv s' →
      wp database R (announcedTerms c) (k a) f' s' (Adds R (OfBet b) Write.due f' s' d)) :
    wp database R (announcedTerms c) (p >>= k) f s (Adds R (OfBet b) Write.due f s d) :=
  wp_adds_thenWithin hO.lax hs hp (fun _ hw => ofBet_ledger hw)
    fun a f' s' ho => hk a f' s' ho.rely.inv

/-- A notification, before the rest. -/
theorem wp_thenPublish {k : Unit → Action α} {e : RoundDomainEvent} {d : Topic → ℤ}
    (hP : OfBet b (.notify e))
    (hk : ∀ f' s', R.inv s' →
      wp database R (announcedTerms c) (k ()) f' s' (Adds R (OfBet b) Write.due f' s' d)) :
    wp database R (announcedTerms c) (publish e >>= k) f s
      (Adds R (OfBet b) Write.due f s ((Write.notify e).due + d)) :=
  wp_adds_bind hO.lax.regular (wp_adds_put hO.lax hP) fun _ f' s' ho => hk f' s' ho.rely.inv

/-- A bet that is locked and active is closed. -/
theorem wp_close_adds {k : Option Bet → Action α} {u : BetUpdate} {d : Topic → ℤ}
    (h : Playing b f s)
    (hk : ∀ row f' s', R.inv s' → row.id = b.id →
      wp database R (announcedTerms c) (k (some (u.row row))) f' s'
        (Adds R (OfBet b) Write.due f' s' d)) :
    wp database R (announcedTerms c) (updateActiveBet b.id u >>= k) f s
      (Adds R (OfBet b) Write.due f s ((Write.updateBet b.id u).due + d)) := by
  have hR := hO.lax.regular
  refine wp_bind.2 (hO.updateActiveBet (fun f₁ s₁ h₁ hnone => ?_)
    (fun f₁ s₁ row h₁ hlog hpending _ hrow _ => onValue_ok ?_) fun _ _ _ => adds_error)
  · obtain ⟨row, hrow, hactive⟩ := (h.still hO h₁).active
    exact absurd hactive (hnone row hrow)
  · have ho : Onward R (OfBet b) f s f₁ s₁ :=
      ⟨h₁, ⟨_, hpending, fun w hw => List.mem_singleton.1 hw ▸ ofBet_update⟩, hlog⟩
    exact wp_adds_after hR ho (by rw [hpending, tally_snoc]) (hk row f₁ s₁ h₁.rely.inv (lookup_key hrow))

/-- A bet is closed and not won; what remains is to announce it. -/
theorem wp_closeLost_adds {k : Option Bet → Action α} {u : BetUpdate} (h : Playing b f s)
    (hstatus : u.status ≠ .WON)
    (hk : ∀ row f' s', R.inv s' → row.id = b.id →
      wp database R (announcedTerms c) (k (some (u.row row))) f' s'
        (Adds R (OfBet b) Write.due f' s' (-(Topic.closed b.id).once))) :
    wp database R (announcedTerms c) (updateActiveBet b.id u >>= k) f s (Balances R b f s) := by
  have hsum : (0 : Topic → ℤ) = (Write.updateBet b.id u).due + -(Topic.closed b.id).once := by
    simp [Write.due, hstatus]
  unfold Balances
  rw [hsum]
  exact wp_close_adds hO h hk

/-- A bet is won; what remains is to announce that, and that it is closed. -/
theorem wp_closeWon_adds {k : Option Bet → Action α} {u : BetUpdate} (h : Playing b f s)
    (hstatus : u.status = .WON)
    (hk : ∀ row f' s', R.inv s' → row.id = b.id →
      wp database R (announcedTerms c) (k (some (u.row row))) f' s'
        (Adds R (OfBet b) Write.due f' s' (-(Topic.won b.id).once + -(Topic.closed b.id).once))) :
    wp database R (announcedTerms c) (updateActiveBet b.id u >>= k) f s (Balances R b f s) := by
  have hsum : (0 : Topic → ℤ) = (Write.updateBet b.id u).due +
      (-(Topic.won b.id).once + -(Topic.closed b.id).once) := by
    simp only [Write.due, hstatus, if_true]
    abel
  unfold Balances
  rw [hsum]
  exact wp_close_adds hO h hk

/-- The outcome of a bet is announced to its owner, with the new balance. -/
theorem wp_publishBetOutcome_adds {walletId : Uuid} :
    wp database R (announcedTerms c) (publishBetOutcome b.id b.userId walletId) f s
      (Adds R (OfBet b) Write.due f s (-(Topic.closed b.id).once)) := by
  have hR := hO.lax.regular
  refine wp_bind.2 (wp_selectOnward fun f₁ s₁ h₁ => onValue_ok ?_)
  cases hrow : (f₁.view database s₁).bet b.id with
  | none => exact wp_throw adds_error
  | some row =>
    have hid : row.id = b.id := lookup_key hrow
    have hsum : -(Topic.closed b.id).once =
        (Write.notify (.betSettled b.userId (toBetView row))).due +
          -(Topic.wallet b.userId).once := by
      simp only [Write.due, toBetView, hid]
      abel
    refine wp_adds_still hR h₁ (wp_thenLedger hO h₁.rely.inv getBalance_touches
      fun balance f₂ s₂ hs₂ => ?_)
    rw [hsum]
    refine wp_thenPublish hO (ofBet_notify fun userId view heq => ?_) fun f₃ s₃ hs₃ => ?_
    · cases heq
      exact ⟨rfl, hid⟩
    · exact wp_adds_put hO.lax (ofBet_notify (by simp))

/-! ## Bets that are closed -/

/-- A bet that is settled as lost is announced once. -/
theorem settleLostBet_adds (h : Playing b f s) :
    wp database R (announcedTerms c) (settleLostBet b) f s (Balances R b f s) := by
  refine wp_bind.2 (wp_read fun x => onValue_ok ?_)
  refine wp_closeLost_adds hO h (by simp) fun row f₁ s₁ hs₁ _ => ?_
  refine wp_thenLedger hO hs₁ postEnlisted_touches fun _ f₂ s₂ hs₂ => ?_
  refine wp_thenLedger hO hs₂ getWalletAccountId_touches fun walletId f₃ s₃ _ => ?_
  exact wp_publishBetOutcome_adds hO

/-- A bet that is settled as won is announced once. -/
theorem settleWonBet_adds {oddsBp : ℤ} (h : Playing b f s) :
    wp database R (announcedTerms c) (settleWonBet b oddsBp) f s (Balances R b f s) := by
  refine wp_bind.2 (wp_check ?_)
  cases basisPointsFromRaw oddsBp with
  | error e => exact adds_error
  | ok multiplier =>
  refine onValue_ok (wp_bind.2 (wp_check ?_))
  cases b.stakeMinor.applyMultiplier multiplier with
  | error e => exact adds_error
  | ok payout =>
  refine onValue_ok (wp_bind.2 (wp_check ?_))
  cases Money.sub payout b.stakeMinor with
  | error e => exact adds_error
  | ok profit =>
  refine onValue_ok (wp_bind.2 (wp_read fun x => onValue_ok ?_))
  refine wp_closeWon_adds hO h rfl fun row f₁ s₁ hs₁ _ => ?_
  refine wp_thenLedger hO hs₁ getWalletAccountId_touches fun walletId f₂ s₂ hs₂ => ?_
  refine wp_thenLedger hO hs₂ postEnlisted_touches fun _ f₃ s₃ hs₃ => ?_
  refine wp_thenLedger hO hs₃ Within.select fun displayName f₄ s₄ hs₄ => ?_
  refine wp_thenLedger hO hs₄ Within.select fun roundId f₅ s₅ hs₅ => ?_
  refine wp_thenPublish hO (ofBet_notify (by simp)) fun f₆ s₆ _ => ?_
  exact wp_publishBetOutcome_adds hO

/-- Whichever of the two it is. -/
theorem settleBet_adds {r : Round} (h : Playing b f s) :
    wp database R (announcedTerms c) (settleBet r b) f s (Balances R b f s) := by
  unfold settleBet
  cases r.game with
  | CRASH => exact settleLostBet_adds hO h
  | ROULETTE =>
    refine wp_bind.2 (wp_check ?_)
    cases b.winsAt (r.winningPocket.getD 0) with
    | error e => exact adds_error
    | ok won =>
      cases won with
      | none => exact settleLostBet_adds hO h
      | some odds => exact settleWonBet_adds hO h

/-- A bet that is refunded is announced once. -/
theorem refundBet_adds (h : Playing b f s) :
    wp database R (announcedTerms c) (refundBet b) f s (Balances R b f s) := by
  refine wp_bind.2 (wp_read fun x => onValue_ok ?_)
  refine wp_closeLost_adds hO h (by simp) fun row f₁ s₁ hs₁ _ => ?_
  refine wp_thenLedger hO hs₁ getWalletAccountId_touches fun walletId f₂ s₂ hs₂ => ?_
  refine wp_thenLedger hO hs₂ postEnlisted_touches fun _ f₃ s₃ _ => ?_
  exact wp_publishBetOutcome_adds hO

/-- A bet that is cashed out is announced once, to its owner. -/
theorem payCashOut_adds {input : CashOutInput} {game : GameKind} {now : Time}
    {multiplierBp : ℤ} (howner : b.userId = input.userId) (h : Playing b f s) :
    wp database R (announcedTerms c) (payCashOut input b game now multiplierBp) f s
      (Balances R b f s) := by
  refine wp_bind.2 (wp_check ?_)
  cases basisPointsFromRaw multiplierBp with
  | error e => exact adds_error
  | ok multiplier =>
  refine onValue_ok (wp_bind.2 (wp_check ?_))
  cases b.stakeMinor.applyMultiplier multiplier with
  | error e => exact adds_error
  | ok payout =>
  refine onValue_ok (wp_bind.2 (wp_check ?_))
  cases Money.sub payout b.stakeMinor with
  | error e => exact adds_error
  | ok profit =>
  refine onValue_ok (wp_closeWon_adds hO h rfl fun row f₁ s₁ hs₁ hid => ?_)
  refine wp_thenLedger hO hs₁ getWalletAccountId_touches fun walletId f₂ s₂ hs₂ => ?_
  refine wp_thenLedger hO hs₂ postEnlisted_touches fun _ f₃ s₃ hs₃ => ?_
  refine wp_thenLedger hO hs₃ Within.select fun displayName f₄ s₄ hs₄ => ?_
  refine wp_thenLedger hO hs₄ getBalance_touches fun balance f₅ s₅ hs₅ => ?_
  refine wp_thenPublish hO (ofBet_notify (by simp)) fun f₆ s₆ hs₆ => ?_
  have hsum : -(Topic.closed b.id).once = -(Topic.wallet input.userId).once +
      ((Topic.wallet input.userId).once - (Topic.closed b.id).once + 0) := by abel
  rw [hsum]
  refine wp_thenPublish hO (ofBet_notify (by simp)) fun f₇ s₇ hs₇ => ?_
  rw [← hid]
  refine wp_thenPublish hO (ofBet_notify fun userId view heq => ?_) fun f₈ s₈ hs₈ => ?_
  · cases heq
    exact ⟨howner.symm, hid⟩
  · exact wp_pure (adds_refl hO.lax.regular hs₈)

/-- So it is on every branch that closes it. -/
theorem cashOutActive_adds {input : CashOutInput} (howner : b.userId = input.userId)
    (h : Playing b f s) :
    wp database R (announcedTerms c) (cashOutActive input b) f s (Balances R b f s) := by
  have hR := hO.lax.regular
  refine wp_bind.2 (wp_selectOnward fun f₁ s₁ h₁ => onValue_ok ?_)
  cases (f₁.view database s₁).round b.roundId with
  | none => exact wp_throw adds_error
  | some round =>
    dsimp only
    split
    · split
      · refine wp_bind.2 (wp_read fun x => onValue_ok ?_)
        split
        · exact wp_throw adds_error
        · exact wp_adds_still hR h₁ (payCashOut_adds hO howner (h.still hO h₁))
      · exact wp_throw adds_error
    · exact wp_throw adds_error

/-! ## Rounds that are closed -/

/-- The settlements among the writes are of these bets. -/
def OfBets (found : List Bet) (w : Write) : Prop :=
  ∀ userId view, w = .notify (.betSettled userId view) →
    ∃ b ∈ found, userId = b.userId ∧ view.id = b.id

omit hO in
/-- A write of one bet is a write of one of the bets. -/
theorem OfBet.ofBets {found : List Bet} {w : Write} (h : OfBet b w) (hb : b ∈ found) :
    OfBets found w :=
  fun userId view heq => ⟨b, hb, h.settled userId view heq⟩

/-- A transaction whose part adds nothing, on the bets that it has locked. -/
theorem announces_ready (found : List Bet) {f₁ f₂ : Standing Db LockKey Write} {s₁ s₂ : Db}
    (hf : f₁.pending = []) (ho : Onward R (OfBets found) f₁ s₁ f₂ s₂)
    (htally : tally Write.due f₂.pending = 0)
    (hfound : ∀ b ∈ found, (.bet b.id, .exclusive) ∈ f₂.held ∧ s₂.bet b.id = some b) :
    Transactions.Ready R (Discharges c) f₂ s₂ := by
  intro s₃ h₃
  refine ⟨.inl htally, fun w hw userId view heq => ?_⟩
  obtain ⟨rows, hrows, hall⟩ := ho.pending
  rw [hrows, hf, List.nil_append] at hw
  obtain ⟨b, hb, hview⟩ := hall w hw userId view heq
  obtain ⟨hlock, hrow⟩ := hfound b hb
  refine ⟨b, ?_, hview.1.symm⟩
  rw [hview.2]
  exact Eq.trans (hO.kept h₃ hlock) hrow

/-- The scan of the active bets of a round finds each of them once. -/
theorem wp_lockActiveBets_adds (hkeyed : ∀ s, R.inv s → (s.bets.map Bet.id).Nodup)
    (hf : f.pending = []) {roundId : Uuid} {Q : Post Db LockKey Write AppError (List Bet)}
    (hok : ∀ found f' s', Onward R (fun _ => False) f s f' s' → (found.map Bet.id).Nodup →
      (∀ b ∈ found, BetLocked roundId b f' s' ∧ b.status = .ACTIVE) → Q (.ok found) f' s') :
    wp database R (announcedTerms c) (lockActiveBets roundId) f s Q := by
  have hscan : wp database R (announcedTerms c) (lockActiveBets roundId) f s fun r _ _ =>
      ∀ found, r = .ok found → (found.map Bet.id).Nodup ∧ ∀ b ∈ found, b.status = .ACTIVE := by
    refine wp_bind.2 (wp_read fun x => onValue_ok (wp_bind.2 (wp_selectOnward fun f₁ s₁ h₁ =>
      onValue_ok (wp_mono (fun r _ _ hr found heq => ?_) (wp_lockEach hO.lax.guard Bet.id
        (fun b => b.status = .ACTIVE) (fun row s row' hrow => ?_))))))
    · obtain ⟨hsub, hactive⟩ := hr found heq
      refine ⟨hsub.nodup ?_, hactive⟩
      rw [view_nil (h₁.still.trans hf), ((x.order.perm _).map Bet.id).nodup_iff]
      exact (hkeyed s₁ h₁.rely.inv).sublist (List.filter_sublist.map Bet.id)
    · obtain ⟨hfound, hcond⟩ := Option.filter_eq_some_iff.1 hrow
      exact ⟨lookup_key hfound, by simpa using (Bool.and_eq_true_iff.1 hcond).2⟩
  refine wp_mono (fun r f₁ s₁ h => ?_) (wp_and hscan (hO.lockActiveBets (by rw [hf]; rfl)
    (Q := fun r f' s' => ∃ found, r = .ok found ∧ Onward R (fun _ => False) f s f' s' ∧
      ∀ b ∈ found, BetLocked roundId b f' s') fun found f' s' ho h => ⟨found, rfl, ho, h⟩))
  obtain ⟨hnodup, found, rfl, ho, hlocked⟩ := h
  obtain ⟨hnodup, hactive⟩ := hnodup found rfl
  exact hok found f₁ s₁ ho hnodup fun b hb => ⟨hlocked b hb, hactive b hb⟩

/-- A round that is locked is closed: its active bets one by one, and then the round itself. -/
theorem wp_closeRound_adds (hkeyed : ∀ s, R.inv s → (s.bets.map Bet.id).Nodup) {roundId : Uuid}
    {r : Round} (body : Bet → Action Unit) (from_ : RoundStatus → Bool) (u : Time → RoundUpdate)
    (hlock : (.round roundId, .exclusive) ∈ f.held) (hr : s.round roundId = some r)
    (hfrom : from_ r.status = true) (hf : f.pending = [])
    (hbody : ∀ b f' s', R.inv s' → Playing b f' s' →
      wp database R (announcedTerms c) (body b) f' s' (Balances R b f' s')) :
    wp database R (announcedTerms c)
      (do
        let activeBets ← lockActiveBets roundId
        forEach body activeBets
        let x ← read
        let _ ← updateRoundWhere roundId from_ (u x.now)
        publish (.roundState roundId)) f s (EndsReady R (Discharges c)) := by
  have hR := hO.lax.regular
  refine wp_bind.2 (wp_lockActiveBets_adds hO hkeyed hf fun found f₁ s₁ h₁ hnodup hfound =>
    onValue_ok ?_)
  have hf₁ : f₁.pending = [] := h₁.still.trans hf
  -- the bets that are still to be closed are locked and active
  refine wp_bind.2 (wp_mono (fun res f₂ s₂ h₂ => ?_) (wp_adds_forEach Write.due
    (fun w => OfBets found w ∧ w.table ≠ .rounds) hR h₁.rely.inv
    (fun done f' s' => ∀ b ∈ found, b ∉ done → Playing b f' s') (fun b hb _ => ?_)
    fun done b after hsplit f₂ s₂ hs₂ hplaying => ?_))
  · cases res with
    | error e => exact endsReady_error
    | ok _ =>
    obtain ⟨ho, htally⟩ := h₂.1 () rfl
    have hf₂ : rowsOn .rounds f₂.pending = [] := by
      obtain ⟨rows, hrows, hall⟩ := ho.pending
      rw [hrows, hf₁, List.nil_append]
      exact rowsOn_eq_nil fun w hw => (hall w hw).2
    refine onValue_ok (wp_bind.2 (wp_read fun x => onValue_ok (wp_bind.2 (hO.updateRoundWhere hf₂
      (fun f₃ s₃ h₃ hnone => ?_) (fun f₃ s₃ row h₃ hlog _ _ _ _ hpending => onValue_ok ?_)
      fun _ _ _ => endsReady_error))))
    · -- the round is the one that was locked
      have hsame := (hO.kept ((h₁.toLater.trans hR (ho.toLater.trans hR h₃.toLater)).rely) hlock).1
      rw [hsame, hr, Option.filter_some, if_pos hfrom] at hnone
      cases hnone
    · refine hO.put fun s₄ h₄ _ _ => ?_
      have hl : Later R f₁ s₁ f₃ s₄ := ho.toLater.trans hR (h₃.wait hR h₄)
      have hend : (f₃.wrote (.notify (.roundState roundId))).pending =
          f₂.pending ++ [.updateRound roundId (u x.now), .notify (.roundState roundId)] := by
        change f₃.pending ++ _ = _
        rw [hpending, List.append_assoc]
        rfl
      refine announces_ready hO found hf₁
        ⟨⟨hl.rely, hl.kept⟩, ?_, ho.log.trans hlog⟩ ?_ fun b hb => ?_
      · obtain ⟨rows, hrows, hall⟩ := ho.pending
        refine ⟨rows ++ [_, _], by rw [hend, hrows, List.append_assoc], fun w hw => ?_⟩
        rcases List.mem_append.1 hw with hw | hw
        · exact (hall w hw).1
        · simp only [List.mem_cons, List.not_mem_nil, or_false] at hw
          rcases hw with rfl | rfl <;> exact fun _ _ heq => by cases heq
      · rw [hend, tally_append, htally, hf₁]
        simp [tally, Write.due]
      · have hb₁ := (hfound b hb).1
        exact ⟨hl.kept hb₁.locked, Eq.trans (hO.kept hl.rely hb₁.locked) hb₁.row⟩
  · obtain ⟨hb₁, hactive⟩ := hfound b hb
    refine ⟨hb₁.locked, b, ?_, hactive⟩
    rw [view_nil hf₁]
    exact hb₁.row
  · have hb : b ∈ found := hsplit ▸ List.mem_append_right _ List.mem_cons_self
    have hnew : b ∉ done := by
      rw [hsplit, List.map_append, List.nodup_append] at hnodup
      exact fun hmem => hnodup.2.2 _ (List.mem_map_of_mem hmem) _
        (List.mem_map_of_mem List.mem_cons_self) rfl
    refine wp_mono (fun res f₃ s₃ h₃ => ⟨h₃.mono fun w hw => ⟨hw.ofBets hb, hw.rounds⟩,
      fun heq b' hb' hb'done => ?_⟩) (hbody b f₂ s₂ hs₂ (hplaying b hb hnew))
    rw [List.mem_append, List.mem_singleton, not_or] at hb'done
    refine (hplaying b' hb' hb'done.1).other hO (h₃ () heq).1 fun hid => hb'done.2 ?_
    exact List.inj_on_of_nodup_map hnodup hb' hb hid

/-! ## Calls -/

omit hO in
/-- A session without writes owes no announcement. -/
theorem ready_nil (hf : f.pending = []) : Transactions.Ready R (Discharges c) f s := by
  intro s' _
  show Discharges c s' f.pending
  rw [hf]
  exact ⟨.inl rfl, List.forall_mem_nil _⟩

omit hO in
/-- What is pending is announced and settles no bet. -/
theorem ready_mute (hall : ∀ w ∈ f.pending, Mute w)
    (hrows : tally Write.due f.pending = 0 ∨
      c.opens ∧ Always R f.held s fun s' => OpensRound s' f.pending) :
    Transactions.Ready R (Discharges c) f s := by
  refine fun s' hs' => ⟨?_, fun w hw userId view heq => absurd heq (hall w hw userId view)⟩
  exact hrows.imp id fun h => ⟨h.1, h.2 s' hs'⟩

section
variable {roundId : Uuid} (hf : f.pending = [])
include hf

/-- A change of a round, and its announcement. -/
theorem wp_step_announces {from_ : RoundStatus → Bool} {u : RoundUpdate} :
    wp database R (announcedTerms c)
      (do publishIfChanged roundId (← updateRoundWhere roundId from_ u)) f s
      (EndsReady R (Discharges c)) := by
  refine wp_bind.2 (hO.updateRoundWhere (by rw [hf]; rfl) (fun f₁ s₁ h₁ _ => ?_)
    (fun f₁ s₁ row _ _ _ _ _ _ hpending => ?_) fun _ _ _ => endsReady_error)
  · have hnone : publishIfChanged roundId 0 = pure () := rfl
    refine onValue_ok ?_
    rw [hnone]
    exact wp_pure fun _ _ => ready_nil (h₁.still.trans hf)
  · refine hO.put fun s₂ _ _ _ => ready_mute ?_ (.inl ?_)
    · simp [Standing.wrote, hpending, hf, Mute]
    · simp [Standing.wrote, hpending, hf, tally, Write.due]

/-- `lockRound` commits its transition with one announcement. -/
theorem lockRound_announces :
    wp database R (announcedTerms c) (lockRound roundId) f s fun _ f' _ => f'.pending = [] :=
  wp_transaction_ready (wp_step_announces hO hf)

/-- So does `startRound`. -/
theorem startRound_announces :
    wp database R (announcedTerms c) (startRound roundId) f s fun _ f' _ => f'.pending = [] :=
  wp_transaction_ready (wp_bind.2 (wp_read fun _ => onValue_ok (wp_step_announces hO hf)))

/-- So does `resolveRound`. -/
theorem resolveRound_announces :
    wp database R (announcedTerms c) (resolveRound roundId) f s fun _ f' _ => f'.pending = [] := by
  refine wp_bind.2 (wp_selectOnward fun f₁ s₁ h₁ => onValue_ok ?_)
  have hf₁ : f₁.pending = [] := h₁.still.trans hf
  cases (f₁.view database s₁).round roundId with
  | none => exact wp_throw hf₁
  | some round =>
    exact wp_transaction_ready (wp_bind.2 (wp_read fun _ => onValue_ok (wp_step_announces hO hf₁)))

/-- `cashOut` commits the closed bet with its announcements. -/
theorem cashOut_announces {input : CashOutInput} :
    wp database R (announcedTerms c) (cashOut input) f s fun _ f' _ => f'.pending = [] := by
  refine wp_transaction_ready (wp_bind.2 (hO.selectForLock (.bet input.betId)
    (fun s row hrow => ?_) (fun f₁ s₁ h₁ _ => onValue_ok (wp_throw endsReady_error))
    fun f₁ s₁ b h₁ hlock hrow => onValue_ok ?_))
  · obtain ⟨hfound, -⟩ := Option.filter_eq_some_iff.1 hrow
    exact congrArg LockKey.bet (lookup_key hfound)
  · obtain ⟨hfound, howner⟩ := Option.filter_eq_some_iff.1 hrow
    have hf₁ : f₁.pending = [] := h₁.still.trans hf
    have hid : b.id = input.betId := lookup_key hfound
    rw [← hid] at hlock hfound
    dsimp only
    cases hstatus : b.status with
    | ACTIVE =>
      refine wp_mono (fun r f₂ s₂ h₂ a ha => ?_) (cashOutActive_adds hO (by simpa using howner)
        ⟨hlock, b, hfound, hstatus⟩)
      obtain ⟨ho, htally⟩ := h₂ a ha
      rw [hf₁, tally_nil, add_zero] at htally
      refine announces_ready hO [b] hf₁
        (ho.mono fun w hw => hw.ofBets List.mem_cons_self) htally fun b' hb' => ?_
      rw [view_nil hf₁] at hfound
      rw [List.mem_singleton.1 hb']
      exact ⟨ho.kept hlock, Eq.trans (hO.kept ho.rely hlock) hfound⟩
    | WON => exact wp_pure fun _ _ => ready_nil hf₁
    | LOST => exact wp_throw endsReady_error
    | VOIDED => exact wp_throw endsReady_error

/-- `settleRound` commits the closed bets and the round, each with its announcement. -/
theorem settleRound_announces (hkeyed : ∀ s, R.inv s → (s.bets.map Bet.id).Nodup) :
    wp database R (announcedTerms c) (settleRound roundId) f s fun _ f' _ => f'.pending = [] := by
  refine wp_transaction_ready (wp_bind.2 (hO.selectForLock (.round roundId)
    (fun _ _ hrow => congrArg LockKey.round (lookup_key hrow))
    (fun f₁ s₁ h₁ _ => onValue_ok (wp_pure fun _ _ => ready_nil (h₁.still.trans hf)))
    fun f₁ s₁ row h₁ hlock hrow => onValue_ok ?_))
  have hf₁ : f₁.pending = [] := h₁.still.trans hf
  rw [view_nil hf₁] at hrow
  dsimp only
  split
  · exact wp_pure fun _ _ => ready_nil hf₁
  case isFalse hstatus =>
    exact wp_closeRound_adds hO hkeyed (settleBet row) (· == .RESOLVED)
      (fun now => { status := .SETTLED, settledAt := some now }) hlock hrow
      (by simpa using hstatus) hf₁ fun b f₂ s₂ _ hb => settleBet_adds hO hb

/-- So does `voidRound`. -/
theorem voidRound_announces (hkeyed : ∀ s, R.inv s → (s.bets.map Bet.id).Nodup) :
    wp database R (announcedTerms c) (voidRound roundId) f s fun _ f' _ => f'.pending = [] := by
  refine wp_transaction_ready (wp_bind.2 (hO.selectForLock (.round roundId)
    (fun _ _ hrow => congrArg LockKey.round (lookup_key hrow))
    (fun f₁ s₁ h₁ _ => onValue_ok (wp_pure fun _ _ => ready_nil (h₁.still.trans hf)))
    fun f₁ s₁ row h₁ hlock hrow => onValue_ok ?_))
  have hf₁ : f₁.pending = [] := h₁.still.trans hf
  rw [view_nil hf₁] at hrow
  dsimp only
  split
  · exact wp_pure fun _ _ => ready_nil hf₁
  · exact wp_closeRound_adds hO hkeyed refundBet (fun _ => true)
      (fun now => { status := .VOIDED, settledAt := some now, seedRevealed := some row.seed })
      hlock hrow rfl hf₁ fun b f₂ s₂ _ hb => refundBet_adds hO hb

end

/-! ## A bet that is placed -/

omit hO in
/-- A write of the ledger. -/
theorem mute_ledger {w : Write} (h : w.table ∈ [Table.ledger]) : Mute w ∧ w.due = 0 := by
  rw [List.mem_singleton] at h
  exact ⟨mute_of_table (by simp [h]),
    Write.due_eq_zero (by simp [h]) (by simp [h]) (by simp [h])⟩

/-- A part that writes nothing but the ledger, before the rest. -/
theorem wp_placing {β : Type} {p : Action β} {k : β → Action α} {d : Topic → ℤ}
    (hs : R.inv s) (hp : Touches [.ledger] p)
    (hk : ∀ a f' s', R.inv s' →
      wp database R (announcedTerms c) (k a) f' s' (Adds R Mute Write.due f' s' d)) :
    wp database R (announcedTerms c) (p >>= k) f s (Adds R Mute Write.due f s d) :=
  wp_adds_thenWithin hO.lax hs hp (fun _ hw => mute_ledger hw)
    fun a f' s' ho => hk a f' s' ho.rely.inv

/-- A bet that is inserted is to be announced. -/
theorem wp_insertBet_adds {b : Bet} (hs : R.inv s) :
    wp database R (announcedTerms c) (insertBet b) f s
      (Adds R Mute Write.due f s (Write.insertBet b).due) := by
  have hpending : wp database R (announcedTerms c) (insertBet b) f s fun r f' _ =>
      r = .ok () → f'.pending = f.pending ++ [.insertBet b] :=
    hO.insertBet (fun _ _ _ _ h _ => h) fun _ _ _ h => by cases h
  refine wp_mono (fun r f₁ s₁ h a ha => ?_) (wp_and (hO.part insertBet_touches hs) hpending)
  have hrows := h.2 ha
  exact ⟨h.1.mono fun w hw => mute_of_table (tables_ne hw (by simp)), by rw [hrows, tally_snoc]⟩

/-- The bet that is recorded is announced in the same transaction. -/
theorem recordBet_adds {input : PlaceBetInput} {stake : Money} {game : GameKind}
    {priced : PricedSelection} {walletId : Uuid} (hs : R.inv s) :
    wp database R (announcedTerms c) (recordBet input stake game priced walletId) f s
      (Adds R Mute Write.due f s 0) := by
  have hR := hO.lax.regular
  refine wp_bind.2 (wp_read fun x => onValue_ok (wp_bind.2 (wp_ensure (fun _ => onValue_ok ?_)
    fun _ => adds_error)))
  have hsum : (0 : Topic → ℤ) = (Topic.placed x.uuid).once + (Topic.wallet input.userId).once +
      (-(Topic.placed x.uuid).once + (-(Topic.wallet input.userId).once + 0)) := by abel
  rw [hsum]
  refine wp_adds_bind hR (wp_insertBet_adds hO hs) fun _ f₁ s₁ h₁ => ?_
  refine wp_placing hO h₁.rely.inv postEnlisted_touches fun _ f₂ s₂ hs₂ => ?_
  refine wp_placing hO hs₂ Within.select fun displayName f₃ s₃ hs₃ => ?_
  refine wp_placing hO hs₃ getBalance_touches fun balance f₄ s₄ hs₄ => ?_
  refine wp_adds_bind hR (wp_adds_put hO.lax (by simp [Mute])) fun _ f₅ s₅ h₅ => ?_
  refine wp_adds_bind hR (wp_adds_put hO.lax (by simp [Mute])) fun _ f₆ s₆ h₆ => ?_
  exact wp_pure (adds_refl hR h₆.rely.inv)

/-- `placeBet` announces each bet that it inserts. -/
theorem placeBetTransaction_adds {input : PlaceBetInput} {stake : Money} :
    wp database R (announcedTerms c) (placeBetTransaction input stake) f s
      (Adds R Mute Write.due f s 0) := by
  have hR := hO.lax.regular
  refine wp_bind.2 (wp_selectOnward fun f₁ s₁ h₁ => onValue_ok (wp_adds_still hR h₁ ?_))
  cases findByIdempotencyKey input.userId input.idempotencyKey (f₁.view database s₁) with
  | some replay => exact wp_pure (adds_refl hR h₁.rely.inv)
  | none =>
    refine wp_bind.2 (hO.selectForLock (.round input.roundId)
      (fun _ _ hrow => congrArg LockKey.round (lookup_key hrow))
      (fun f₂ s₂ h₂ _ => onValue_ok (wp_throw adds_error))
      fun f₂ s₂ round h₂ _ _ => onValue_ok (wp_adds_still hR h₂ ?_))
    dsimp only
    split
    · exact wp_throw adds_error
    · refine wp_bind.2 (wp_check ?_)
      cases priceSelection round.game input.selection with
      | error e => exact adds_error
      | ok priced =>
        refine onValue_ok (wp_placing hO h₂.rely.inv getWalletAccountId_touches
          fun walletId f₃ s₃ hs₃ => wp_placing hO hs₃ lockAndAssertSufficient_touches
            fun _ f₄ s₄ hs₄ => ?_)
        exact recordBet_adds hO hs₄

section
variable (hf : f.pending = [])
include hf

/-- It commits no bet without its announcement. -/
theorem placeBet_announces {config : Config} {input : PlaceBetInput} :
    wp database R (announcedTerms c) (placeBet config input) f s fun _ _ _ => True := by
  unfold placeBet
  split
  · exact wp_throw trivial
  · refine wp_bind.2 (wp_check ?_)
    cases Money.fromMinor input.stakeMinor with
    | error e => trivial
    | ok stake =>
      refine wp_handle.2 (wp_mono (fun r f₁ s₁ _ => ?_) (wp_transaction_ready
        (wp_mono (fun r f₁ s₁ h₁ a ha => ?_) (placeBetTransaction_adds hO))))
      · cases r with
        | ok view => exact wp_pure trivial
        | error e =>
          dsimp only
          unfold placeBetRecover
          split
          · refine wp_bind.2 (wp_select fun s₂ _ => onValue_ok ?_)
            cases findByIdempotencyKey input.userId input.idempotencyKey
              (f₁.view database s₂) with
            | none => exact wp_throw trivial
            | some existing => exact wp_pure trivial
          · exact wp_throw trivial
      · obtain ⟨ho, htally⟩ := h₁ a ha
        obtain ⟨rows, hrows, hall⟩ := ho.pending
        rw [hf, tally_nil, add_zero] at htally
        rw [hf, List.nil_append] at hrows
        exact ready_mute (fun w hw => hall w (hrows ▸ hw)) (.inl htally)

/-! ## A round that is opened -/

variable {config : Config} {crypto : Crypto}

/-- A chain is committed by itself, and calls for nothing. -/
theorem chainFor_announces {nonce : ℕ} :
    wp database R (announcedTerms c) (chainFor config crypto nonce) f s
      fun _ f' _ => f'.pending = [] := by
  refine wp_bind.2 (wp_selectOnward fun f₁ s₁ h₁ => onValue_ok ?_)
  have hf₁ : f₁.pending = [] := h₁.still.trans hf
  cases coveringChain nonce (f₁.view database s₁) with
  | some chain => exact wp_pure hf₁
  | none =>
    refine wp_bind.2 (wp_read fun x => onValue_ok (wp_bind.2 (wp_check ?_)))
    cases deriveChainSeed crypto.sha256 x.randomBytes config.fairnessChainLength 1 with
    | error e => exact hf₁
    | ok firstSeed =>
      refine onValue_ok (wp_bind.2 (wp_mono (fun r f₂ s₂ hf₂ => ?_) (wp_transaction_ready
        (hO.insertChain hf₁ (fun f₂ s₂ _ hpending _ _ _ => ?_) fun _ _ _ => endsReady_error))))
      · cases r with
        | error e => exact hf₂
        | ok _ => exact hf₂
      · refine ready_mute ?_ (.inl ?_)
        · simp [hpending, Mute]
        · simp [hpending, tally, Write.due]

/-- Drawing an outcome leaves nothing to announce. -/
theorem drawOutcome_announces {nonce : ℕ} :
    wp database R (announcedTerms c) (drawOutcome config crypto nonce) f s
      fun _ f' _ => f'.pending = [] := by
  refine wp_bind.2 (wp_mono (fun r f₁ s₁ hf₁ => ?_) (chainFor_announces hO hf))
  cases r with
  | error e => exact hf₁
  | ok chain =>
    refine wp_bind.2 (wp_selectOnward fun f₂ s₂ h₂ => onValue_ok ?_)
    have hf₂ : f₂.pending = [] := h₂.still.trans hf₁
    cases (f₂.view database s₂).chain chain.id with
    | none => exact wp_throw hf₂
    | some row =>
      refine wp_bind.2 (wp_check ?_)
      cases deriveChainSeed crypto.sha256 row.terminalSeed chain.length
        (nonce - chain.firstNonce + 1) with
      | error e => exact hf₂
      | ok seed =>
        refine onValue_ok (wp_bind.2 (wp_check ?_))
        cases verifyOutcome crypto seed nonce with
        | error e => exact hf₂
        | ok verified => exact hf₂

variable (hc : c.opens)
include hc

/-- The row of a round and its announcement are two transactions. -/
theorem openDrawnRound_announces {game : GameKind} {outcome : RoundOutcome}
    {pocket : Option ℤ} :
    wp database R (announcedTerms c) (openDrawnRound config game outcome pocket) f s
      fun _ f' _ => f'.pending = [] := by
  have hR := hO.lax.regular
  have hinsert : wp database R (announcedTerms c)
      (autocommit (insertDrawnRound config game outcome pocket)) f s fun r f' s' =>
        f'.pending = [] ∧ ∀ id, r = .ok id → (s'.round id).isSome = true := by
    refine wp_transaction (wp_bind.2 (wp_read fun x => onValue_ok (wp_bind.2 (wp_draw
      (fun _ _ => trivial) fun s₁ h₁ => onValue_ok (wp_bind.2 (hO.insertRound rfl rfl
        (by rw [hf]; rfl) (fun f₂ s₂ h₂ hpending hinserted => onValue_ok (wp_pure ?_))
        fun _ _ _ _ _ => ⟨rfl, fun _ h => by cases h⟩))))))
    intro s₃ h₃ _
    refine ⟨fun _ => ⟨ready_mute ?_ (.inr ⟨hc, fun _ _ => .inl ⟨_, by rw [hpending, hf]; rfl⟩⟩)
      s₃ h₃, rfl, fun id hid => ?_⟩, fun _ _ => ⟨rfl, fun _ h => by cases h⟩⟩
    · simp [hpending, hf, Mute]
    · cases hid
      have hlock : (.round x.uuid, .exclusive) ∈ f₂.held := hinserted.held (by simp [needs])
      have hfree : s₃.round x.uuid = none := (hO.kept h₃ hlock).1.trans hinserted.id
      unfold Standing.view
      rw [hpending, hf]
      exact Option.isSome_of_eq_some (lookup_append_new hfree)
  refine wp_bind.2 (wp_mono (fun r f₁ s₁ h₁ => ?_) hinsert)
  cases r with
  | error e => exact h₁.1
  | ok id =>
    obtain ⟨hf₁, hround⟩ := h₁
    obtain ⟨row, hrow⟩ := Option.isSome_iff_exists.1 (hround id rfl)
    refine wp_bind.2 (wp_mono (fun r f₂ s₂ hf₂ => ?_) (wp_transaction_ready
      (hO.put fun s₂ h₂ _ _ => ready_mute ?_ (.inr ⟨hc, fun s₃ h₃ => .inr ⟨id, ?_, ?_⟩⟩))))
    · cases r with
      | error e => exact hf₂
      | ok _ => exact hf₂
    · simp [Standing.wrote, hf₁, Mute]
    · simp [Standing.wrote, hf₁]
    · obtain ⟨row', hrow', -⟩ := (hO.grows (h₂.trans hR h₃).grows).round hrow
      exact Option.isSome_of_eq_some hrow'

/-- A round is inserted by itself, and announced by itself. -/
theorem openRound_announces {game : GameKind} :
    wp database R (announcedTerms c) (openRound config crypto game) f s
      fun _ f' _ => f'.pending = [] := by
  refine wp_bind.2 (wp_selectOnward fun f₁ s₁ h₁ => onValue_ok ?_)
  refine wp_bind.2 (wp_mono (fun r f₂ s₂ hf₂ => ?_)
    (drawOutcome_announces hO (h₁.still.trans hf)))
  cases r with
  | error e => exact hf₂
  | ok outcome =>
    refine wp_bind.2 (wp_check ?_)
    generalize (if game = .ROULETTE then _ else _ : Except AppError (Option ℤ)) = pocket
    cases pocket with
    | error e => exact hf₂
    | ok pocket =>
      refine wp_handle.2 (wp_mono (fun r f₃ s₃ hf₃ => ?_) (openDrawnRound_announces hO hf₂ hc))
      cases r with
      | ok id => exact hf₃
      | error e =>
        dsimp only
        split
        · exact wp_pure hf₃
        · exact wp_throw hf₃

/-- So it is when it is due. -/
theorem openRoundIfDue_announces {game : GameKind} :
    wp database R (announcedTerms c) (openRoundIfDue config crypto game) f s
      fun _ f' _ => f'.pending = [] := by
  refine wp_bind.2 (wp_selectOnward fun f₁ s₁ h₁ => onValue_ok ?_)
  have hf₁ : f₁.pending = [] := h₁.still.trans hf
  cases (lastSettled game (f₁.view database s₁)).bind Round.settledAt with
  | none => exact openRound_announces hO hf₁ hc
  | some settledAt =>
    refine wp_bind.2 (wp_read fun x => onValue_ok ?_)
    split
    · exact wp_pure hf₁
    · exact openRound_announces hO hf₁ hc

/-- Every transaction of a tick announces what it commits, or opens a round. -/
theorem tickGame_announces (hkeyed : ∀ s, R.inv s → (s.bets.map Bet.id).Nodup) {game : GameKind} :
    wp database R (announcedTerms c) (tickGame config crypto game) f s
      fun _ f' _ => f'.pending = [] := by
  refine wp_bind.2 (wp_selectOnward fun f₁ s₁ h₁ => onValue_ok ?_)
  have hf₁ : f₁.pending = [] := h₁.still.trans hf
  cases liveRoundOf game (f₁.view database s₁) with
  | none =>
    refine wp_bind.2 (wp_mono (fun r f₂ s₂ hf₂ => ?_) (openRoundIfDue_announces hO hf₁ hc))
    cases r with
    | ok id => exact hf₂
    | error e => exact hf₂
  | some live =>
    refine wp_bind.2 (wp_read fun x => onValue_ok ?_)
    dsimp only
    cases live.status with
    | OPEN =>
      dsimp only
      split
      · exact lockRound_announces hO hf₁
      · exact wp_pure hf₁
    | LOCKED => exact startRound_announces hO hf₁
    | RUNNING =>
      cases live.startedAt with
      | none => exact wp_pure hf₁
      | some startedAt =>
        dsimp only
        split
        · exact voidRound_announces hO hf₁ hkeyed
        · split
          · exact resolveRound_announces hO hf₁
          · exact wp_pure hf₁
    | RESOLVED => exact settleRound_announces hO hf₁ hkeyed
    | SETTLED => exact wp_pure hf₁
    | VOIDED => exact wp_pure hf₁

end

/-- A call that writes no table that calls for announcements. -/
theorem idle_announces (tables : List Table) {p : Action α} (hp : WritesTo tables p)
    (hbets : .bets ∉ tables) (hrounds : .rounds ∉ tables) (hnotify : .notifications ∉ tables) :
    wp database R (announcedTerms c) p {} s fun _ _ _ => True := by
  refine wp_mono (fun _ _ _ _ => trivial) (hO.untouched (fun s rows hrows => ?_)
    hp (List.forall_mem_nil _))
  refine ⟨.inl (tally_eq_zero fun w hw => ?_), fun w hw userId view heq => ?_⟩
  · exact Write.due_eq_zero (tables_ne (hrows w hw) hbets) (tables_ne (hrows w hw) hrounds)
      (tables_ne (hrows w hw) hnotify)
  · exact absurd heq (mute_of_table (tables_ne (hrows w hw) hnotify) userId view)

/-- What every call commits is announced. -/
theorem call_announces (hkeyed : ∀ s, R.inv s → (s.bets.map Bet.id).Nodup) {config : Config}
    {crypto : Crypto} :
    wp database R (announcedTerms c) (program config crypto c) {} s fun _ _ _ => True := by
  have hreply : ∀ {β : Type} {g : β → Reply} {p : Action β},
      (wp database R (announcedTerms c) p {} s fun _ f' _ => f'.pending = []) →
        wp database R (announcedTerms c) (g <$> p) {} s fun _ _ _ => True :=
    fun h => wp_map (wp_mono (fun _ _ _ _ => trivial) h)
  cases c with
  | register dto =>
    exact idle_announces hO _ (Writes.map register_writes) (by simp) (by simp) (by simp)
  | login dto =>
    exact idle_announces hO [.tokens] (Writes.map (login_writes
      (fun _ => List.nil_subset _) fun _ => by simp [Write.table])) (by simp) (by simp) (by simp)
  | refresh rawToken =>
    exact idle_announces hO [.tokens] (Writes.map (refresh_writes
      (fun _ => List.nil_subset _) (fun _ => by simp [Write.table])
      fun _ _ => by simp [Write.table])) (by simp) (by simp) (by simp)
  | logout rawToken =>
    exact idle_announces hO [.tokens] (Writes.map (logout_writes
      (fun _ => List.nil_subset _) fun _ _ => by simp [Write.table])) (by simp) (by simp) (by simp)
  | placeBet input => exact wp_map (wp_mono (fun _ _ _ _ => trivial) (placeBet_announces hO rfl))
  | cashOut input => exact hreply (cashOut_announces hO rfl)
  | openRoundIfDue game => exact hreply (openRoundIfDue_announces hO rfl trivial)
  | lockRound roundId => exact hreply (lockRound_announces hO rfl)
  | startRound roundId => exact hreply (startRound_announces hO rfl)
  | resolveRound roundId => exact hreply (resolveRound_announces hO rfl)
  | settleRound roundId => exact hreply (settleRound_announces hO rfl hkeyed)
  | voidRound roundId => exact hreply (voidRound_announces hO rfl hkeyed)
  | tickGame game => exact hreply (tickGame_announces hO rfl trivial hkeyed)

end

/-! ## The whole system -/

/-- What one step tells of the rounds: just those that have changed, each once; or a round is
opened and not yet told; or one is told that was there. -/
inductive RoundsTold (s : Db) : Db → Prop
  | told {s' : Db} (events : List RoundDomainEvent) (delivered : s'.delivered = s.delivered ++ events)
      (once : ∀ id, events.count (.roundState id) = if s'.round id = s.round id then 0 else 1) :
      RoundsTold s s'
  | opened {r : Round} (new : s.round r.id = none) (status : r.status = .OPEN) :
      RoundsTold s (s.apply (.insertRound r))
  | opening {id : Uuid} (there : (s.round id).isSome = true) :
      RoundsTold s (s.apply (.notify (.roundState id)))

/-- The transitions that a round has certainly gone through. -/
def RoundStatus.passed : RoundStatus → ℕ
  | .OPEN => 0
  | .LOCKED | .VOIDED => 1
  | .RUNNING => 2
  | .RESOLVED => 3
  | .SETTLED => 4

section
variable {s s' : Db} {rows : List Write}

/-- A transition passes one status at most. -/
theorem RoundStatus.Next.passed_le {a b : RoundStatus} (h : a.Next b) : b.passed ≤ a.passed + 1 := by
  cases h <;> simp [RoundStatus.passed]

/-- The announcements among the writes. -/
def announcements (rows : List Write) : List RoundDomainEvent :=
  rows.filterMap fun
    | .notify e => some e
    | _ => none

/-- What is delivered after some writes are the announcements among them, at the end. -/
theorem applyAll_announcements (s : Db) (rows : List Write) :
    (database.applyAll s rows).delivered = s.delivered ++ announcements rows := by
  induction rows generalizing s with
  | nil => simp [announcements]
  | cons w rows ih =>
    rw [Database.applyAll_cons]
    refine (ih (s.apply w)).trans ?_
    cases w with
    | notify e => simp [announcements, Db.apply]
    | _ => rfl

/-- The writes to a round, less its announcements. -/
theorem tally_moved (rows : List Write) (id : Uuid) :
    tally Write.due rows (.moved id) =
      tally Write.due (rowsOn .rounds rows) (.moved id) -
        (announcements rows).count (.roundState id) := by
  induction rows with
  | nil => simp [announcements]
  | cons w rows ih =>
    have hcons : ∀ rows : List Write, tally Write.due (w :: rows) (.moved id) =
        w.due (.moved id) + tally Write.due rows (.moved id) := fun rows => by simp [tally]
    rw [hcons, ih]
    cases w with
    | notify e =>
      cases e with
      | roundState roundId =>
        by_cases hid : roundId = id
        · simp [rowsOn, Write.table, announcements, Write.due, Topic.once_apply, hid]
          ring
        · simp [rowsOn, Write.table, announcements, Write.due, Topic.once_apply, hid]
      | _ => simp [rowsOn, Write.table, announcements, Write.due, Topic.once_apply]
    | insertRound r =>
      have hrows : rowsOn .rounds (.insertRound r :: rows) = .insertRound r :: rowsOn .rounds rows :=
        rfl
      rw [hrows, hcons]
      simp only [announcements, List.filterMap_cons_none]
      ring
    | updateRound id' u =>
      have hrows : rowsOn .rounds (.updateRound id' u :: rows) =
          .updateRound id' u :: rowsOn .rounds rows := rfl
      rw [hrows, hcons]
      simp only [announcements, List.filterMap_cons_none]
      ring
    | updateBet id' u =>
      by_cases hwon : u.status = .WON <;>
        simp [rowsOn, Write.table, announcements, Write.due, Topic.once_apply, hwon]
    | _ => simp [rowsOn, Write.table, announcements, Write.due, Topic.once_apply]

/-- A change of the table calls for one announcement of each round that has changed. -/
theorem RoundChange.tally (h : RoundChange s (rowsOn .rounds rows)) (id : Uuid) :
    Transactions.tally Write.due (rowsOn .rounds rows) (.moved id) =
      if (database.applyAll s rows).round id = s.round id then 0 else 1 := by
  have hround : (database.applyAll s rows).round id =
      (database.applyAll s (rowsOn .rounds rows)).round id :=
    congrArg (lookup Round.id · id) (applyAll_rounds s rows)
  rw [hround]
  generalize rowsOn .rounds rows = changed at h
  cases h with
  | none => exact (if_pos rfl).symm
  | @opened r hnew hstatus _ _ =>
    rw [tally_singleton]
    change (Topic.moved r.id).once (.moved id) =
      if lookup Round.id (s.rounds ++ [r]) id = s.round id then 0 else 1
    by_cases hid : r.id = id
    · subst hid
      rw [lookup_append_new hnew, hnew]
      simp [Topic.once_apply]
    · rw [lookup_append_ne hid]
      simp [Topic.once_apply, hid, Db.round]
  | @moved id' r u hr ht _ =>
    rw [tally_singleton]
    change (Topic.moved id').once (.moved id) =
      if lookup Round.id (modify Round.id s.rounds id' u.row) id = s.round id then 0 else 1
    by_cases hid : id' = id
    · subst hid
      have hne : u.row r ≠ r := by
        intro heq
        have hlt := ht.next.rank_lt
        rw [heq] at hlt
        exact lt_irrefl _ hlt
      rw [lookup_modify_self (RoundUpdate.row_id u) hr, hr]
      simp [Topic.once_apply, hne]
    · rw [lookup_modify_ne (RoundUpdate.row_id u) (Ne.symm hid)]
      simp [Topic.once_apply, hid, Db.round]

/-- What is committed tells of just the rounds that it changes. -/
theorem Discharges.rounds {c : Call} (h : Discharges c s rows)
    (hchange : RoundChange s (rowsOn .rounds rows)) : RoundsTold s (database.applyAll s rows) := by
  rcases h.1 with htally | ⟨-, ⟨r, rfl⟩ | ⟨id, rfl, hthere⟩⟩
  · refine .told _ (applyAll_announcements s rows) fun id => ?_
    have hmoved := tally_moved rows id
    rw [htally, hchange.tally id] at hmoved
    have hcount : ((announcements rows).count (.roundState id) : ℤ) =
        if (database.applyAll s rows).round id = s.round id then 0 else 1 := by
      change (0 : ℤ) = _ at hmoved
      linarith
    split at hcount
    case isTrue heq =>
      rw [if_pos heq]
      exact_mod_cast hcount
    case isFalse hne =>
      rw [if_neg hne]
      exact_mod_cast hcount
  · have hrows : rowsOn .rounds [.insertRound r] = [.insertRound r] := rfl
    rw [hrows] at hchange
    generalize hsingle : [Write.insertRound r] = changed at hchange
    cases hchange with
    | none => cases hsingle
    | opened hnew hstatus _ _ =>
      cases hsingle
      exact .opened hnew hstatus
    | moved _ _ _ => cases hsingle
  · exact .opening hthere

end

section
variable {config : Config} {crypto : Crypto}

/-- The announcements as a layer on the lifecycle: every call keeps its terms. -/
theorem heard_layer : Layer database (lifecycle config) Heard (fun _ _ => True)
    (program config crypto) (fun c => (terms config c).upon roundTerms) announcedTerms
    fun _ _ _ _ _ => True where
  refl _ := trivial
  trans _ _ := trivial
  commits hs hheard h h' := by
    obtain ⟨es, rfl, hdone, -⟩ := h.1
    refine ⟨hheard.after hdone.timely (fun t ht => ?_) (fun userId view hmem => ?_)
      (hdone.keeps hs.1).2.toGrows, trivial⟩
    · rcases h'.1 with htally | ⟨-, ⟨r, hrows⟩ | ⟨id, hrows, -⟩⟩
      · rw [htally]
        rfl
      · rw [hrows, tally_singleton]
        cases t with
        | moved id => cases ht
        | _ => simp [Write.due, Topic.once_apply]
      · rw [hrows, tally_singleton]
        cases t with
        | moved id => cases ht
        | _ => simp [Write.due, Topic.once_apply]
    · exact h'.2 _ hmem userId view rfl
  draws {_ s row} _ hheard hdraws _ := by
    rcases hdraws.1 with rfl | rfl <;> exact ⟨hheard.of_eq rfl rfl, trivial⟩
  stable _ _ _ _ _ _ _ _ := trivial
  lost _ _ _ _ := trivial
  start _ c s _ _ _ _ := by
    have hbase : Base ((lifecycle config).upon Heard fun _ _ => True) :=
      (lifecycle_base config).upon (fun _ => trivial) (fun _ _ => trivial) fun {s w} hs hw => by
        refine ⟨hs.of_eq (Write.isDraw_same hw s).1.bets ?_, trivial⟩
        cases w with
        | drawNonce => rfl
        | drawEntryId => rfl
        | _ => cases hw
    exact call_announces (hbase.overlay _) fun s hs => hs.1.1.keyed.bets

/-- Every call keeps the books and the lifecycles, and announces what it commits. -/
theorem heard_verified : Verified database ((lifecycle config).upon Heard fun _ _ => True)
    (program config crypto) (fun c => ((terms config c).upon roundTerms).upon (announcedTerms c))
    fun _ c r f s => (c.answer r f s ∧ True) ∧ True :=
  lifecycle_verified.upon heard_layer

/-- The terms ask nothing of the circumstances of a statement. -/
theorem admits_heard (w : System) (e : Event Inputs Call) :
    Admits (fun c => ((terms config c).upon roundTerms).upon (announcedTerms c)) w e := by
  cases e with
  | start c => exact ⟨⟨trivial, trivial⟩, trivial⟩
  | run i x => exact fun _ _ => ⟨⟨trivial, trivial⟩, trivial⟩
  | kill i => trivial

/-- Nothing has been announced at first, and nothing is owed. -/
theorem migrated_heard : Heard migrated where
  once t ht := by
    cases t with
    | moved id => cases ht
    | wallet id => cases ht
    | _ => rfl
  owner _ _ hmem := absurd hmem List.not_mem_nil

/-- In every state that is reached what has happened to the bets has been announced. -/
theorem reachable_announcing {w : System} (h : Reaches config crypto w) :
    w.Sound database ((lifecycle config).upon Heard fun _ _ => True)
      (fun c => ((terms config c).upon roundTerms).upon (announcedTerms c))
      fun _ c r f s => (c.answer r f s ∧ True) ∧ True :=
  (World.Sound.run heard_verified (fun w e _ => admits_heard w e) h
    (.idle ⟨⟨migrated_consistent config, migrated_lifecycle⟩, migrated_heard⟩)).1

/-- One step tells of just the rounds that it changes. -/
theorem reachable_roundsTold {w w' : System} (h : Reaches config crypto w) {e : Event Inputs Call}
    (he : w.step database (program config crypto) e = some w') : RoundsTold w.db w'.db := by
  obtain ⟨-, hchange, -⟩ := (reachable_announcing h).step heard_verified (admits_heard w e) he
  have hidle : ∀ s' : Db, s'.rounds = w.db.rounds → s'.delivered = w.db.delivered →
      RoundsTold w.db s' := by
    intro s' hrounds hdelivered
    refine .told [] (by rw [hdelivered, List.append_nil]) fun id => ?_
    have hround : s'.round id = w.db.round id := congrArg (lookup Round.id · id) hrounds
    rw [if_pos hround]
    rfl
  generalize w'.db = s' at hchange
  cases hchange with
  | none => exact hidle _ rfl rfl
  | commit _ _ hcommits => exact hcommits.2.rounds hcommits.1.2
  | draw _ _ hdraws => rcases hdraws.1.1 with rfl | rfl <;> exact hidle _ rfl rfl

/-- Whatever happens to a bet is announced exactly once: in every state reached there is one
announcement of each bet placed, of each bet closed and of each bet won, and none of any other, and
the settlements are announced to the owners. -/
theorem reachable_heard {w : System} (h : Reaches config crypto w) :
    (∀ id, w.db.delivered.countP (Topic.placed id).announcedBy =
      if (w.db.bet id).isSome then 1 else 0) ∧
    (∀ id, w.db.delivered.countP (Topic.closed id).announcedBy =
      if (w.db.bet id).any fun b => decide (b.status ≠ .ACTIVE) then 1 else 0) ∧
    (∀ id, w.db.delivered.countP (Topic.won id).announcedBy =
      if (w.db.bet id).any fun b => decide (b.status = .WON) then 1 else 0) ∧
    ∀ userId view, .betSettled userId view ∈ w.db.delivered →
      ∃ b, w.db.bet view.id = some b ∧ b.userId = userId := by
  have hheard := (reachable_announcing h).inv.2
  have hcount : ∀ t : Topic, t.ofBet = true →
      w.db.delivered.countP t.announcedBy = if t.happened w.db then 1 else 0 := by
    intro t ht
    have howed := hheard.once t ht
    unfold Db.owed at howed
    cases hhappened : t.happened w.db <;> simp [hhappened] at howed ⊢ <;> omega
  exact ⟨fun id => hcount (.placed id) rfl, fun id => hcount (.closed id) rfl,
    fun id => hcount (.won id) rfl, hheard.owner⟩

/-- The small game: one bet won, one lost, one still active. -/
theorem reachable_heard_smallGame :
    (executed smallGame).db.bets.map Bet.status = [.WON, .LOST, .ACTIVE] ∧
      ∀ id, (executed smallGame).db.delivered.countP (Topic.closed id).announcedBy =
        if ((executed smallGame).db.bet id).any fun b => decide (b.status ≠ .ACTIVE) then 1 else 0 :=
  ⟨by decide +kernel, (reachable_heard (reaches_executed smallGame)).2.1⟩

/-- Every transition of a round has been announced: in every state reached a round was told of at
least as often as it has moved, and each step tells of just the rounds that it changes. -/
theorem reachable_announced {w : System} (h : Reaches config crypto w) :
    (∀ id r, w.db.round id = some r → r.status.passed ≤ w.db.delivered.count (.roundState id)) ∧
      ∀ e w', w.step database (program config crypto) e = some w' → RoundsTold w.db w'.db := by
  refine ⟨?_, fun e w' he => reachable_roundsTold h he⟩
  unfold Reaches at h
  generalize hstart : (⟨migrated, []⟩ : System) = start at h
  induction h with
  | refl =>
    subst hstart
    exact fun id r hr => by cases hr
  | @tail w w' e hrun _ hstep ih =>
    subst hstart
    intro id r hr
    have hreach : Reaches config crypto w := hrun
    have hmoves := reaches_roundsStep hreach hstep
    have htold := reachable_roundsTold hreach hstep
    generalize w'.db = s' at hr hmoves htold
    cases htold with
    | told events hdelivered honce =>
      rw [hdelivered, List.count_append, honce id]
      rcases hmoves id r hr with ⟨hnew, hopen⟩ | ⟨q, hq, rfl | ⟨hnext, -⟩⟩
      · rw [hopen]
        exact Nat.zero_le _
      · exact (ih id r hq).trans (Nat.le_add_right _ _)
      · have hne : s'.round id ≠ w.db.round id := by
          rw [hr, hq]
          intro heq
          have hlt := hnext.rank_lt
          rw [Option.some.inj heq] at hlt
          exact lt_irrefl _ hlt
        rw [if_neg hne]
        exact hnext.passed_le.trans (Nat.add_le_add_right (ih id q hq) 1)
    | @opened r' hnew hstatus =>
      by_cases hid : r'.id = id
      · have hfound : lookup Round.id (w.db.rounds ++ [r']) id = some r := hr
        subst hid
        rw [lookup_append_new hnew] at hfound
        rw [← Option.some.inj hfound, hstatus]
        exact Nat.zero_le _
      · have hfound : lookup Round.id (w.db.rounds ++ [r']) id = some r := hr
        rw [lookup_append_ne hid] at hfound
        exact ih id r hfound
    | opening _ =>
      refine (ih id r hr).trans ?_
      change _ ≤ (w.db.delivered ++ _).count _
      rw [List.count_append]
      exact Nat.le_add_right _ _

/-- The small game: the round that is settled was told of at least four times. -/
theorem reachable_announced_smallGame :
    4 ≤ (executed smallGame).db.delivered.count (.roundState (uuidAt 109)) := by
  have hstatus : ((executed smallGame).db.round (uuidAt 109)).map Round.status = some .SETTLED := by
    decide +kernel
  obtain ⟨r, hr, hsettled⟩ := Option.map_eq_some_iff.1 hstatus
  have hpassed := (reachable_announced (reaches_executed smallGame)).1 _ r hr
  rwa [hsettled] at hpassed

end

end Tessera
