import Tessera.Books.System
import Tessera.Database.Clerical
import Tessera.Database.Overlay
import Tessera.Ledger.Order
import Tessera.Transactions.Checked

/-!
# Every row keeps to its constraints

Each bet row satisfies the CHECK constraints of its table and each balance fits its column, in every
state that the system reaches: whoever writes such a row has locked it and checked what it will be.

* `Permitted` — what a write has been checked against; `Constrained` — the constraints;
* `updateActiveBet_keeps`, `updateBalance_keeps` — the two statements that check and write;
* `call_keeps` — every call checks what it writes;
* `reachable_constrained` — the constraints along every run.
-/

namespace Tessera

open Relational Transactions Transactions.Program

/-- What a write has been checked against, if the constraints depend on it. -/
def Permitted (seen : Sighting Db LockKey) : Write → Prop
  | .insertBet b => b.violated = none
  | .updateBet id u => ∃ mode v b, seen = some ((.bet id, mode), v) ∧ v.bet id = some b ∧
      (u.row b).violated = none
  | .addBalance id amount => ∃ mode v, seen = some ((.balance id, mode), v) ∧
      inBigint (v.balanceOf id + amount) = true
  | _ => True

/-- Every bet row satisfies its CHECK constraints, every balance fits its column. -/
structure Constrained (s : Db) : Prop where
  bets : ∀ id b, s.bet id = some b → b.violated = none
  balances : Ranged s

/-- The migrations leave no bets, and balances of zero. -/
theorem migrated_constrained : Constrained migrated where
  bets _ _ h := absurd (lookup_mem h) List.not_mem_nil
  balances id := by
    rw [migrated_balanceOf]
    decide

/-- A write that needs no check is permitted whatever has been seen. -/
theorem permitted_none {seen : Sighting Db LockKey} {w : Write} (h : Permitted none w) :
    Permitted seen w := by
  cases w with
  | updateBet id u =>
    obtain ⟨mode, v, b, hseen, -⟩ := h
    cases hseen
  | addBalance id amount =>
    obtain ⟨mode, v, hseen, -⟩ := h
    cases hseen
  | _ => exact h

/-- Writes to other tables need no check. -/
theorem permitted_other {w : Write} (hbets : w.table ≠ .bets) (hledger : w.table ≠ .ledger) :
    Permitted none w := by
  cases w with
  | insertBet b => exact absurd rfl hbets
  | updateBet id u => exact absurd rfl hbets
  | addBalance id amount => exact absurd rfl hledger
  | _ => trivial

section
variable {s : Db}

/-- A new account has a balance of zero, which fits. -/
theorem Ranged.insertAccount (h : Ranged s) (a : Account) :
    Ranged (s.apply (.insertAccount a)) := by
  intro id
  by_cases hrow : s.balance a.id = none
  · rw [Db.balanceOf_insertAccount hrow]
    exact h id
  · -- the new row is not the first of its account
    obtain ⟨r, hr⟩ := Option.ne_none_iff_exists'.1 hrow
    have hsame : (s.apply (.insertAccount a)).balance id = s.balance id := by
      show lookup Balance.accountId (s.balances ++ [⟨a.id, 0⟩]) id = lookup _ s.balances id
      by_cases hid : a.id = id
      · rw [← hid, show lookup Balance.accountId s.balances a.id = some r from hr]
        exact lookup_append_of_some hr _
      · exact lookup_append_ne hid
    unfold Db.balanceOf
    rw [hsame]
    exact h id

/-- A balance that has been checked fits after it has moved. -/
theorem Ranged.addBalance (h : Ranged s) {id : Uuid} {amount : ℤ}
    (hid : inBigint (s.balanceOf id + amount) = true) : Ranged (s.apply (.addBalance id amount)) := by
  intro id'
  have hold := h id'
  have hrow : (s.apply (.addBalance id amount)).balance id' =
      if id' = id then (s.balance id').map (Balance.add amount) else s.balance id' :=
    lookup_modify (Balance.add_accountId amount) id'
  unfold Db.balanceOf at hold hid ⊢
  rw [hrow]
  split
  · subst id'
    cases hb : s.balance id with
    | none => rfl
    | some b =>
      rw [hb] at hid
      exact hid
  · exact hold

/-- A permitted write keeps the constraints, while what was seen is still so. -/
theorem Constrained.apply {seen : Sighting Db LockKey} {w : Write} (h : Constrained s)
    (hw : Permitted seen w) (hseen : ∀ k v, seen = some (k, v) → Same k.1 k.2 v s) :
    Constrained (s.apply w) := by
  cases w with
  | insertBet b =>
    refine ⟨fun id c hc => ?_, h.balances⟩
    rcases lookup_append_cases hc with hold | ⟨-, rfl, -⟩
    · exact h.bets id c hold
    · exact hw
  | updateBet id u =>
    obtain ⟨mode, v, b, hsome, hb, hchecks⟩ := hw
    have hsame : s.bet id = v.bet id := hseen _ v hsome
    refine ⟨fun id' c hc => ?_, h.balances⟩
    by_cases hid : id' = id
    · subst hid
      rw [← hsame] at hb
      rw [show (s.apply (.updateBet id' u)).bet id' = some (u.row b) from
        lookup_modify_self (BetUpdate.row_id u) hb] at hc
      cases hc
      exact hchecks
    · exact h.bets id' c ((lookup_modify_ne (BetUpdate.row_id u) hid).symm.trans hc)
  | addBalance id amount =>
    obtain ⟨mode, v, hsome, hrange⟩ := hw
    have hsame : s.balance id = v.balance id := (hseen _ v hsome).1
    refine ⟨h.bets, h.balances.addBalance ?_⟩
    unfold Db.balanceOf at hrange ⊢
    rw [hsame]
    exact hrange
  | insertAccount a => exact ⟨h.bets, h.balances.insertAccount a⟩
  | _ => exact ⟨h.bets, h.balances⟩

end

/-! ## What the services check -/

/-- A program whose writes are checked. -/
abbrev Keeps {α : Type} (p : Action α) : Prop :=
  p.Checked Permitted (fun w => w.isDraw = true) none

section
variable {α : Type} {seen : Sighting Db LockKey} {tables : List Table}

/-- A part that writes neither bets nor balances needs no check. -/
theorem Touches.keeps {p : Action α} (h : Touches tables p) (hbets : .bets ∉ tables)
    (hledger : .ledger ∉ tables) : Keeps p :=
  Checked.of_within (fun _ _ => permitted_none) <|
    Within.mono (fun _ hw => permitted_other (tables_ne hw hbets) (tables_ne hw hledger)) h

/-- A part that writes nothing. -/
theorem Touches.silent {p : Action α} (h : Touches [] p) {P : Write → Prop} :
    p.Within P fun w => w.isDraw = true :=
  Within.mono (fun _ hw => absurd hw List.not_mem_nil) h

/-- Nor does a part that writes nothing. -/
theorem Touches.keeps_nil {p : Action α} (h : Touches [] p) : Keeps p :=
  h.keeps List.not_mem_nil List.not_mem_nil

/-- Two parts that check what they write, one after the other. -/
theorem Keeps.bind {β : Type} {p : Action α} {k : α → Action β} (h : Keeps p)
    (hk : ∀ a, Keeps (k a)) : Keeps (p >>= k) :=
  Checked.bind (fun _ _ => permitted_none) h hk

/-- Reading the clock or an id comes before a part like any other. -/
theorem Keeps.bind_read {k : Inputs → Action α} (hk : ∀ x, Keeps (k x)) : Keeps (read >>= k) :=
  hk

theorem Keeps.done {r : Except AppError α} : Keeps (Program.done r) := trivial

/-- A transaction checks what it writes if its body does. -/
theorem Keeps.transaction {body : Action α} (h : Keeps body) :
    Keeps (Program.transaction body) :=
  Checked.transaction (fun _ _ => permitted_none) h

/-- So does a loop over rows. -/
theorem Keeps.forEach {body : α → Action Unit} {rows : List α} (h : ∀ a, Keeps (body a)) :
    Keeps (Program.forEach body rows) :=
  Checked.forEach (fun _ _ => permitted_none) fun a _ => h a

/-- The CHECK constraints are evaluated without losing sight of the locked row. -/
theorem checked_assertChecks {violated : Option String} {k : Unit → Action α}
    (hk : violated = none → (k ()).Checked Permitted (fun w => w.isDraw = true) seen) :
    (assertChecks violated >>= k).Checked Permitted (fun w => w.isDraw = true) seen := by
  cases violated with
  | none => exact hk rfl
  | some constraint => trivial

/-- The constraints of a bet are checked on the row that is updated, under its lock. -/
theorem updateActiveBet_keeps {betId : Uuid} {u : BetUpdate} : Keeps (updateActiveBet betId u) := by
  refine Checked.bind_selectForLock (fun _ => trivial) fun s s' row row' hrow hrow' => ?_
  refine checked_assertChecks fun hchecks => ⟨?_, trivial⟩
  have hid : row.id = betId := lookup_key (Option.filter_eq_some_iff.1 hrow).1
  exact ⟨.exclusive, s', row', by rw [hid], (Option.filter_eq_some_iff.1 hrow').1, hchecks⟩

/-- The range of a balance is checked on the row that is updated, under its lock. -/
theorem updateBalance_keeps {posting : Posting} : Keeps (updateBalance posting) := by
  refine Checked.bind_selectForLock (fun _ => trivial) fun s s' row row' hrow hrow' => ?_
  obtain ⟨b, hb, rfl⟩ := Option.map_eq_some_iff.1 hrow
  obtain ⟨b', hb', rfl⟩ := Option.map_eq_some_iff.1 hrow'
  refine Checked.bind_ensure fun hrange => Checked.bind_check fun _ _ => ⟨?_, trivial⟩
  have hof : s'.balanceOf posting.accountId = b'.balance := by
    unfold Db.balanceOf
    rw [hb']
    rfl
  refine ⟨.exclusive, s', ?_, ?_⟩
  · rw [show b.accountId = posting.accountId from lookup_key hb]
  · rw [hof]
    exact hrange

/-- A bet is inserted once its CHECK constraints hold. -/
theorem insertBet_keeps {b : Bet} : Keeps (insertBet b) := by
  refine checked_assertChecks fun hchecks => ?_
  refine Keeps.bind claim_touches.keeps_nil fun _ => Keeps.bind claim_touches.keeps_nil fun _ => ?_
  refine Keeps.bind ⟨hchecks, trivial⟩ fun _ => ?_
  exact Keeps.bind assertReference_touches.keeps_nil fun _ => assertReference_touches.keeps_nil

/-! ## Postings -/

/-- A posting checks each balance before it moves it. -/
theorem postInTransaction_keeps {input : PostInput} : Keeps (postInTransaction input) := by
  have hjournal : ∀ {w : Write}, (∃ t, w = .insertTransaction t) ∨ (∃ e, w = .insertEntry e) →
      Permitted none w := by
    rintro w (⟨t, rfl⟩ | ⟨e, rfl⟩) <;> trivial
  have hkeeps : ∀ {β : Type} {p : Action β},
      p.Within (fun w => (∃ t, w = .insertTransaction t) ∨ ∃ e, w = .insertEntry e)
        (fun w => w.isDraw = true) → Keeps p := fun h =>
    Checked.of_within (fun _ _ => permitted_none) (Within.mono (fun _ => hjournal) h)
  refine fun x => Keeps.bind (hkeeps ?_) fun _ => Keeps.bind (hkeeps ?_) fun _ =>
    Keeps.bind (Keeps.forEach fun _ => updateBalance_keeps) fun _ => trivial
  · exact Within.bind claim_touches.silent fun _ => Within.put (.inl ⟨_, rfl⟩)
  · refine Within.bind Within.read fun x => Within.bind (Within.forEach fun p _ => ?_) fun _ =>
      Within.forEach fun p _ => assertReference_touches.silent
    exact Within.bind (Within.draw rfl) fun _ => Within.bind Within.ensure fun _ =>
      Within.put (.inr ⟨_, rfl⟩)

/-- So does a posting inside an open transaction. -/
theorem postEnlisted_keeps {input : PostInput} : Keeps (postEnlisted input) :=
  Checked.bind_check fun _ _ => postInTransaction_keeps

/-- A notification is not a row of a constrained table. -/
theorem publish_keeps {e : RoundDomainEvent} : Keeps (publish e) :=
  publish_touches.keeps (by simp) (by simp)

/-- Nor are those about the outcome of a bet. -/
theorem publishBetOutcome_keeps {betId userId walletId : Uuid} :
    Keeps (publishBetOutcome betId userId walletId) :=
  publishBetOutcome_touches.keeps (by simp) (by simp)

theorem select_keeps {view : Db → α} : Keeps (select view) := fun _ => trivial

/-! ## Calls -/

/-- The new bet and its posting are checked. -/
theorem recordBet_keeps {input : PlaceBetInput} {stake : Money} {game : GameKind}
    {priced : PricedSelection} {walletId : Uuid} :
    Keeps (recordBet input stake game priced walletId) :=
  fun _ => Checked.bind_ensure fun _ => Keeps.bind insertBet_keeps fun _ =>
    Keeps.bind postEnlisted_keeps fun _ => Keeps.bind select_keeps fun _ =>
      Keeps.bind getBalance_touches.keeps_nil fun _ => Keeps.bind publish_keeps fun _ =>
        Keeps.bind publish_keeps fun _ => trivial

/-- Every write of `placeBet` is checked, on every branch. -/
theorem placeBet_keeps {config : Config} {input : PlaceBetInput} :
    Keeps (placeBet config input) := by
  unfold placeBet
  split
  · trivial
  refine Checked.bind_check fun stake _ => Checked.tryCatch (fun _ _ => permitted_none)
    (Keeps.transaction (Keeps.bind select_keeps fun replay => ?_)) fun e => ?_
  · cases replay with
    | some replay => trivial
    | none =>
      refine Checked.bind_selectForLock (fun _ => trivial) fun _ _ _ round _ _ => ?_
      refine Checked.of_none (fun _ _ => permitted_none) ?_
      dsimp only
      split
      · trivial
      · exact Checked.bind_check fun _ _ => Keeps.bind getWalletAccountId_touches.keeps_nil fun _ =>
          Keeps.bind lockAndAssertSufficient_touches.keeps_nil fun _ => recordBet_keeps
  · unfold placeBetRecover
    split
    · refine Keeps.bind select_keeps fun found => ?_
      cases found with
      | none => trivial
      | some existing => trivial
    · trivial

/-- The bet that is cashed out and its posting are checked. -/
theorem payCashOut_keeps {input : CashOutInput} {bet : Bet} {game : GameKind} {now : Time}
    {multiplierBp : ℤ} : Keeps (payCashOut input bet game now multiplierBp) := by
  refine Checked.bind_check fun _ _ => Checked.bind_check fun _ _ => Checked.bind_check fun _ _ =>
    Keeps.bind updateActiveBet_keeps fun found => ?_
  cases found with
  | none => trivial
  | some updated =>
    exact Keeps.bind getWalletAccountId_touches.keeps_nil fun _ =>
      Keeps.bind postEnlisted_keeps fun _ => Keeps.bind select_keeps fun _ =>
        Keeps.bind getBalance_touches.keeps_nil fun _ => Keeps.bind publish_keeps fun _ =>
          Keeps.bind publish_keeps fun _ => Keeps.bind publish_keeps fun _ => trivial

/-- Every write of `cashOut` is checked, on every branch. -/
theorem cashOut_keeps {input : CashOutInput} : Keeps (cashOut input) := by
  refine Keeps.transaction (Checked.bind_selectForLock (fun _ => trivial) fun _ _ _ bet _ _ => ?_)
  refine Checked.of_none (fun _ _ => permitted_none) ?_
  dsimp only
  cases bet.status with
  | ACTIVE =>
    refine Keeps.bind select_keeps fun found => ?_
    cases found with
    | none => trivial
    | some round =>
      dsimp only
      split
      · split
        · refine Keeps.bind_read fun x => ?_
          split
          · trivial
          · exact payCashOut_keeps
        · trivial
      · trivial
  | _ => trivial

/-- A lost bet and its posting are checked. -/
theorem settleLostBet_keeps {bet : Bet} : Keeps (settleLostBet bet) :=
  fun _ => Keeps.bind updateActiveBet_keeps fun _ => Keeps.bind postEnlisted_keeps fun _ =>
    Keeps.bind getWalletAccountId_touches.keeps_nil fun _ => publishBetOutcome_keeps

/-- A won bet and its posting are checked. -/
theorem settleWonBet_keeps {bet : Bet} {oddsBp : ℤ} : Keeps (settleWonBet bet oddsBp) :=
  Checked.bind_check fun _ _ => Checked.bind_check fun _ _ => Checked.bind_check fun _ _ =>
    fun _ => Keeps.bind updateActiveBet_keeps fun _ =>
      Keeps.bind getWalletAccountId_touches.keeps_nil fun _ => Keeps.bind postEnlisted_keeps fun _ =>
        Keeps.bind select_keeps fun _ => Keeps.bind select_keeps fun _ =>
          Keeps.bind publish_keeps fun _ => publishBetOutcome_keeps

/-- Whichever of the two it is. -/
theorem settleBet_keeps {round : Round} {bet : Bet} : Keeps (settleBet round bet) := by
  unfold settleBet
  cases round.game with
  | CRASH => exact settleLostBet_keeps
  | ROULETTE =>
    refine Checked.bind_check fun won _ => ?_
    cases won with
    | none => exact settleLostBet_keeps
    | some oddsBp => exact settleWonBet_keeps

/-- A refund and its posting are checked. -/
theorem refundBet_keeps {bet : Bet} : Keeps (refundBet bet) :=
  fun _ => Keeps.bind updateActiveBet_keeps fun _ =>
    Keeps.bind getWalletAccountId_touches.keeps_nil fun _ => Keeps.bind postEnlisted_keeps fun _ =>
      publishBetOutcome_keeps

/-- A round that is closed with its bets. -/
theorem closeRound_keeps {body : Bet → Action Unit} (hbody : ∀ bet, Keeps (body bet))
    {roundId : Uuid} (from_ : RoundStatus → Bool) (update : Time → RoundUpdate) :
    Keeps (do
      let activeBets ← lockActiveBets roundId
      forEach body activeBets
      let x ← read
      let _ ← updateRoundWhere roundId from_ (update x.now)
      publish (.roundState roundId)) :=
  Keeps.bind lockActiveBets_touches.keeps_nil fun _ => Keeps.bind (Keeps.forEach hbody) fun _ =>
    fun _ => Keeps.bind (updateRoundWhere_touches.keeps (by simp) (by simp)) fun _ => publish_keeps

/-- `settleRound` checks every bet that it closes. -/
theorem settleRound_keeps {roundId : Uuid} : Keeps (settleRound roundId) := by
  refine Keeps.transaction (Checked.bind_selectForLock (fun _ => trivial) fun _ _ _ round _ _ => ?_)
  refine Checked.of_none (fun _ _ => permitted_none) ?_
  dsimp only
  split
  · trivial
  · exact closeRound_keeps (fun _ => settleBet_keeps) (· == .RESOLVED)
      fun now => { status := .SETTLED, settledAt := some now }

/-- `voidRound` checks every bet that it refunds. -/
theorem voidRound_keeps {roundId : Uuid} : Keeps (voidRound roundId) := by
  refine Keeps.transaction (Checked.bind_selectForLock (fun _ => trivial) fun _ _ _ round _ _ => ?_)
  refine Checked.of_none (fun _ _ => permitted_none) ?_
  dsimp only
  split
  · trivial
  · exact closeRound_keeps (fun _ => refundBet_keeps) (fun _ => true)
      fun now => { status := .VOIDED, settledAt := some now, seedRevealed := some round.seed }

/-- A call that writes neither bets nor balances. -/
theorem Keeps.of_writes {p : Action α} {N : Write → List (LockKey × LockMode)}
    (h : p.Writes N (Permitted none) (fun w => w.isDraw = true) []) : Keeps p :=
  Checked.of_writes (fun _ _ => permitted_none) h

variable {config : Config} {crypto : Crypto}

/-- A tick settles, opens and moves rounds on, and checks the rows of bets and balances. -/
theorem tickGame_keeps {game : GameKind} : Keeps (tickGame config crypto game) := by
  have hN : ∀ w, (fun _ : Write => ([] : List (LockKey × LockMode))) w ⊆ needs w :=
    fun _ => List.nil_subset _
  refine Keeps.bind select_keeps fun found => ?_
  cases found with
  | none =>
    exact Keeps.bind (Keeps.of_writes (openRoundIfDue_writes hN (fun _ => trivial)
      (fun _ => trivial) (fun _ => trivial) rfl)) fun _ => trivial
  | some live =>
    refine Keeps.bind_read fun x => ?_
    cases live.status with
    | OPEN =>
      dsimp only
      split
      · exact Keeps.of_writes (lockRound_writes hN (fun _ => trivial) fun _ _ => trivial)
      · trivial
    | LOCKED => exact Keeps.of_writes (startRound_writes hN (fun _ => trivial) fun _ _ => trivial)
    | RUNNING =>
      cases live.startedAt with
      | none => trivial
      | some startedAt =>
        dsimp only
        split
        · exact voidRound_keeps
        · split
          · exact Keeps.of_writes (resolveRound_writes hN (fun _ => trivial) fun _ _ => trivial)
          · trivial
    | RESOLVED => exact settleRound_keeps
    | _ => trivial

attribute [local irreducible] Program.Checked in

/-- The grant of a new user is checked. -/
theorem registerTransaction_keeps {dto : RegisterDto} {passwordHash : String} {grant : Money} :
    Keeps (registerTransaction config crypto dto passwordHash grant) := by
  refine Keeps.bind_read fun x => ?_
  refine Keeps.bind (insertUser_touches.keeps (by simp) (by simp)) fun _ => ?_
  refine Keeps.bind (createWallet_touches.keeps (by simp) (by simp)) fun _ => ?_
  refine Keeps.bind postEnlisted_keeps fun _ => ?_
  refine Keeps.bind (issueRefreshToken_touches.keeps (by simp) (by simp)) fun _ => ?_
  exact buildResult_touches.keeps_nil

attribute [local irreducible] Program.Checked in

/-- Every write of `register` is checked, on every branch. -/
theorem register_keeps {dto : RegisterDto} : Keeps (register config crypto dto) := by
  refine Keeps.bind select_keeps fun found => ?_
  cases found with
  | some user => exact Keeps.done
  | none =>
    refine Keeps.bind_read fun x => Keeps.bind Keeps.done fun grant =>
      Checked.tryCatch (fun _ _ => permitted_none)
        (Keeps.transaction registerTransaction_keeps) fun e => ?_
    split <;> exact Keeps.done

/-- Every call checks each bet and each balance that it writes. -/
theorem call_keeps (c : Call) : Keeps (program config crypto c) := by
  have hN : ∀ w, (fun _ : Write => ([] : List (LockKey × LockMode))) w ⊆ needs w :=
    fun _ => List.nil_subset _
  have hmap : ∀ {β : Type} {g : β → Reply} {p : Action β}, Keeps p → Keeps (g <$> p) :=
    fun h => Checked.map (fun _ _ => permitted_none) h
  cases c with
  | register dto => exact hmap register_keeps
  | login dto => exact hmap (Keeps.of_writes (login_writes hN fun _ => trivial))
  | refresh rawToken =>
    exact hmap (Keeps.of_writes (refresh_writes hN (fun _ => trivial) fun _ _ => trivial))
  | logout rawToken => exact hmap (Keeps.of_writes (logout_writes hN fun _ _ => trivial))
  | placeBet input => exact hmap placeBet_keeps
  | cashOut input => exact hmap cashOut_keeps
  | openRoundIfDue game =>
    exact hmap (Keeps.of_writes (openRoundIfDue_writes hN (fun _ => trivial) (fun _ => trivial)
      (fun _ => trivial) rfl))
  | lockRound roundId =>
    exact hmap (Keeps.of_writes (lockRound_writes hN (fun _ => trivial) fun _ _ => trivial))
  | startRound roundId =>
    exact hmap (Keeps.of_writes (startRound_writes hN (fun _ => trivial) fun _ _ => trivial))
  | resolveRound roundId =>
    exact hmap (Keeps.of_writes (resolveRound_writes hN (fun _ => trivial) fun _ _ => trivial))
  | settleRound roundId => exact hmap settleRound_keeps
  | voidRound roundId => exact hmap voidRound_keeps
  | tickGame game => exact hmap tickGame_keeps

/-! ## The whole system -/

/-- What a call may commit: rows that satisfy the constraints. -/
abbrev constrainedTerms : Terms Db LockKey Write :=
  .committing fun s rows => Constrained (database.applyAll s rows)

/-- The locks of the rows keep what was seen true until the write is published. -/
theorem constrained_upholds (config : Config) : Upholds database
    ((books config).upon Constrained fun _ _ => True).eased Permitted Constrained where
  holds hs := hs.2
  congr row h := h.congr row
  write hs hw hseen := hs.apply hw hseen

/-- The sequences are no rows. -/
theorem constrained_draw {s : Db} {w : Write} (hs : Constrained s) (hw : w.isDraw = true) :
    Constrained (s.apply w) := by
  cases w with
  | drawNonce => exact ⟨hs.bets, hs.balances⟩
  | drawEntryId => exact ⟨hs.bets, hs.balances⟩
  | _ => cases hw

/-- The constraints as a layer on the books: every call keeps its terms. -/
theorem constrained_layer : Layer database (books config) Constrained (fun _ _ => True)
    (program config crypto) (terms config) (fun _ => constrainedTerms) fun _ _ _ _ _ => True where
  refl _ := trivial
  trans _ _ := trivial
  commits _ _ _ h := ⟨h, trivial⟩
  draws {_ s row} _ hs hdraws _ := by
    refine ⟨constrained_draw hs ?_, trivial⟩
    rcases hdraws with rfl | rfl <;> rfl
  stable _ _ _ _ _ _ _ _ := trivial
  lost _ _ _ _ := trivial
  start _ c s hs hinv _ _ := by
    have hbase : Base ((books config).upon Constrained fun _ _ => True) :=
      (books_base config).upon (fun _ => trivial) (fun _ _ => trivial)
        fun hs hw => ⟨constrained_draw hs hw, trivial⟩
    refine wp_of_checked (hbase.overlay _).lax (constrained_upholds config) (call_keeps c)
      Sighting.valid_none fun s' hs' => ?_
    exact hs'.inv.2

/-- In every world reached every row keeps to its constraints. -/
theorem reachable_constrained {w : System} (h : Reaches config crypto w) : Constrained w.db := by
  have hverified := (system_verified config crypto).upon constrained_layer
  have hadmits : ∀ (w : System) (e : Event Inputs Call),
      Admits (fun c => (terms config c).upon constrainedTerms) w e := by
    intro w e
    cases e with
    | start c => exact ⟨trivial, trivial⟩
    | run i x => exact fun _ _ => ⟨trivial, trivial⟩
    | kill i => trivial
  exact (World.Sound.run hverified (fun w e _ => hadmits w e) h
    (.idle ⟨migrated_consistent config, migrated_constrained⟩)).1.inv.2

end

end Tessera
