import Tessera.Books.System
import Tessera.Database.Clerical
import Tessera.Database.Overlay

/-!
# What is told of a bet that is closed

A transaction that closes a bet announces it with a view of the row, read back inside the same
transaction.  The row is locked until the commit and closed for good, so what is told of a bet stays
what its row says.

* `Tells`, `Told` — what a transaction, and the delivered notifications, say of the bets;
* `Silent` — the writes that neither close a bet nor tell of one;
* `Shut` — a bet that is locked and no longer active;
* `wp_publishBetOutcome_told`, `wp_closeBet_told` — the rules for the two statements that matter;
* `call_tells`, `reachable_told` — every call, and every run.

Source: `src/src/rounds/round-engine.service.ts` `publishBetOutcome`,
`src/src/rounds/rounds.service.ts` `cashOut`.
-/

namespace Tessera

open Relational Transactions Transactions.Program

/-- What is committed tells of bets what their rows then say. -/
def Tells (s : Db) (rows : List Write) : Prop :=
  ∀ userId view, .notify (.betSettled userId view) ∈ rows →
    ∃ b, (database.applyAll s rows).bet view.id = some b ∧ b.status ≠ .ACTIVE ∧ view = toBetView b

/-- What has been told of bets is what their rows say. -/
def Told (s : Db) : Prop :=
  ∀ userId view, .betSettled userId view ∈ s.delivered →
    ∃ b, s.bet view.id = some b ∧ b.status ≠ .ACTIVE ∧ view = toBetView b

/-- A write that neither changes a bet nor tells of one that is closed. -/
def Silent (w : Write) : Prop :=
  w.table ≠ .bets ∧ ∀ userId view, w ≠ .notify (.betSettled userId view)

/-- A write that tells of no bet that is closed. -/
def Mute (w : Write) : Prop := ∀ userId view, w ≠ .notify (.betSettled userId view)

/-- The terms of a call. -/
abbrev toldTerms : Terms Db LockKey Write := .committing Tells

/-- A write to another table neither changes a bet nor tells of one. -/
theorem silent_of_table {w : Write} (hbets : w.table ≠ .bets) (hnotify : w.table ≠ .notifications) :
    Silent w := by
  refine ⟨hbets, fun userId view heq => hnotify ?_⟩
  rw [heq]
  rfl

/-- Nor does a notification that is not about a closed bet. -/
theorem silent_notify {e : RoundDomainEvent} (h : ∀ userId view, e ≠ .betSettled userId view) :
    Silent (.notify e) := by
  refine ⟨by simp [Write.table], fun userId view heq => h userId view ?_⟩
  injection heq

/-- A part that touches neither the bets nor the channel. -/
theorem Touches.within_silent {α : Type} {tables : List Table} {p : Action α} (h : Touches tables p)
    (hbets : .bets ∉ tables) (hnotify : .notifications ∉ tables) :
    p.Within Silent fun w => w.isDraw = true :=
  Within.mono (fun _ hw => silent_of_table (tables_ne hw hbets) (tables_ne hw hnotify)) h

/-- A posting neither changes a bet nor tells of one. -/
theorem postEnlisted_silent {input : PostInput} :
    (postEnlisted input).Within Silent fun w => w.isDraw = true :=
  postEnlisted_touches.within_silent (by simp) (by simp)

/-- Nor does the lookup of a wallet. -/
theorem getWalletAccountId_silent {userId : Uuid} :
    (getWalletAccountId userId).Within Silent fun w => w.isDraw = true :=
  Touches.within_silent getWalletAccountId_touches List.not_mem_nil List.not_mem_nil

/-- Nor does the lookup of a balance. -/
theorem getBalance_silent {accountId : Uuid} :
    (getBalance accountId).Within Silent fun w => w.isDraw = true :=
  Touches.within_silent getBalance_touches List.not_mem_nil List.not_mem_nil

/-- A write to another table is no notification. -/
theorem mute_of_table {w : Write} (hnotify : w.table ≠ .notifications) : Mute w := by
  intro userId view heq
  rw [heq] at hnotify
  exact hnotify rfl

/-- A part that leaves the channel alone. -/
theorem Touches.mute {α : Type} {tables : List Table} {p : Action α} (h : Touches tables p)
    (hnotify : .notifications ∉ tables) : p.Within Mute fun w => w.isDraw = true :=
  Within.mono (fun _ hw => mute_of_table (tables_ne hw hnotify)) h

/-- A bet that is placed is announced, but not as one that is closed. -/
theorem placeBetTransaction_mute {input : PlaceBetInput} {stake : Money} :
    (placeBetTransaction input stake).Within Mute fun w => w.isDraw = true := by
  refine Within.bind Within.select fun replay => ?_
  cases replay with
  | some replay => trivial
  | none =>
    refine Within.bind Within.selectForLock fun found => ?_
    cases found with
    | none => trivial
    | some round =>
      dsimp only
      split
      · trivial
      · refine Within.bind Within.check fun _ =>
          Within.bind (Touches.mute getWalletAccountId_touches List.not_mem_nil) fun _ =>
            Within.bind (Touches.mute lockAndAssertSufficient_touches List.not_mem_nil) fun _ => ?_
        exact Within.bind Within.read fun _ => Within.bind Within.ensure fun _ =>
          Within.bind (insertBet_touches.mute (by simp)) fun _ =>
            Within.bind (postEnlisted_touches.mute (by simp)) fun _ =>
              Within.bind Within.select fun _ =>
                Within.bind (Touches.mute getBalance_touches List.not_mem_nil) fun _ =>
                  Within.bind (Within.put (by simp [Mute])) fun _ =>
                    Within.bind (Within.put (by simp [Mute])) fun _ => trivial

/-- `placeBet` tells of no bet that is closed. -/
theorem placeBet_mute {config : Config} {input : PlaceBetInput} :
    (placeBet config input).Writes (fun _ => []) Mute (fun w => w.isDraw = true) [] := by
  unfold placeBet
  split
  · trivial
  · refine Writes.bind trivial fun stake =>
      Writes.tryCatch (Within.transaction placeBetTransaction_mute) fun e => ?_
    unfold placeBetRecover
    split
    · refine Writes.bind (fun _ => trivial) fun found => ?_
      cases found with
      | none => trivial
      | some existing => trivial
    · trivial

section
variable {s s' : Db} {rows : List Write}

/-- What is delivered after some writes was delivered before or is one of them. -/
theorem applyAll_delivered (s : Db) (rows : List Write) {e : RoundDomainEvent} :
    e ∈ (database.applyAll s rows).delivered ↔ e ∈ s.delivered ∨ .notify e ∈ rows := by
  induction rows generalizing s with
  | nil => simp
  | cons w rows ih =>
    rw [Database.applyAll_cons, ih, List.mem_cons]
    have hfirst : e ∈ (s.apply w).delivered ↔ e ∈ s.delivered ∨ .notify e = w := by
      cases w with
      | notify e' => simp [Db.apply]
      | _ => simp [Db.apply]
    show e ∈ (s.apply w).delivered ∨ _ ↔ _
    rw [hfirst, or_assoc]

/-- Whether what was told is right depends on the bets and the notifications only. -/
theorem Told.of_eq (h : Told s) (hbets : s'.bets = s.bets)
    (hdelivered : s'.delivered = s.delivered) : Told s' := by
  unfold Told Db.bet at h ⊢
  rw [hbets, hdelivered]
  exact h

/-- A bet that is closed stays as it was told. -/
theorem Told.after (h : Told s) (hrows : Tells s rows)
    (hhistory : History s (database.applyAll s rows)) : Told (database.applyAll s rows) := by
  intro userId view hview
  rcases (applyAll_delivered s rows).1 hview with hold | hnew
  · obtain ⟨b, hb, hclosed, hdescribes⟩ := h userId view hold
    exact ⟨b, hhistory.settled hb hclosed, hclosed, hdescribes⟩
  · exact hrows userId view hnew

/-- Silent writes tell of no bet. -/
theorem Tells.silent (h : ∀ w ∈ rows, Silent w) : Tells s rows :=
  fun userId view hmem => absurd rfl ((h _ hmem).2 userId view)

end

/-! ## The rules -/

section
variable {R : Discipline Db LockKey Write}
variable {f f' : Standing Db LockKey Write} {s s' : Db} {α : Type} {betId : Uuid}

/-- What is pending may be committed, now and whatever the others do. -/
abbrev Telling (R : Discipline Db LockKey Write) (f : Standing Db LockKey Write) (s : Db) : Prop :=
  Transactions.Ready R Tells f s

/-- A bet that is locked and no longer active. -/
structure Shut (betId : Uuid) (f : Standing Db LockKey Write) (s : Db) : Prop where
  locked : (.bet betId, .exclusive) ∈ f.held
  closed : ∀ row, (f.view database s).bet betId = some row → row.status ≠ .ACTIVE

/-- A part of a transaction ends where it may be committed, with the locks it had. -/
def EndsTelling (R : Discipline Db LockKey Write) (f : Standing Db LockKey Write) (s : Db) :
    Post Db LockKey Write AppError α :=
  fun r f' s' => ∀ a, r = .ok a → Later R f s f' s' ∧ Telling R f' s'

/-- A part that ends so, after another one. -/
theorem EndsTelling.wp_after {T : Terms Db LockKey Write} {p : Action α}
    {f₁ : Standing Db LockKey Write} {s₁ : Db} (hR : R.Regular) (hl : Later R f s f₁ s₁)
    (hp : wp database R T p f₁ s₁ (EndsTelling R f₁ s₁)) :
    wp database R T p f₁ s₁ (EndsTelling R f s) := by
  refine wp_mono (fun r f₂ s₂ h₂ a ha => ?_) hp
  exact ⟨hl.trans hR (h₂ a ha).1, (h₂ a ha).2⟩

/-- After an error nothing is promised. -/
theorem endsTelling_error {e : AppError} :
    EndsTelling R f s (.error e : Except AppError α) f' s' :=
  fun _ h => by cases h

/-- Silent writes leave the bets as they were. -/
theorem bet_silent {rows rows' : List Write} (h : ∀ w ∈ rows', Silent w) (id : Uuid) :
    (database.applyAll s (rows ++ rows')).bet id = (database.applyAll s rows).bet id := by
  have hnone : rowsOn .bets rows' = [] := rowsOn_eq_nil fun w hw => (h w hw).1
  have hbets := applyAll_bets (database.applyAll s rows) rows'
  rw [hnone] at hbets
  rw [Database.applyAll_append]
  exact congrArg (lookup Bet.id · id) hbets

/-- Silent writes leave what is told right. -/
theorem Tells.more {rows rows' : List Write} (h : Tells s rows) (hsilent : ∀ w ∈ rows', Silent w) :
    Tells s (rows ++ rows') := by
  intro userId view hmem
  rcases List.mem_append.1 hmem with hmem | hmem
  · rw [bet_silent hsilent]
    exact h userId view hmem
  · exact absurd rfl ((hsilent _ hmem).2 userId view)

/-- A bet that is active is closed: no view that is pending is one of it. -/
theorem Tells.update {rows : List Write} {id : Uuid} {u : BetUpdate} {row : Bet} (h : Tells s rows)
    (hrow : (database.applyAll s rows).bet id = some row) (hactive : row.status = .ACTIVE) :
    Tells s (rows ++ [.updateBet id u]) := by
  intro userId view hmem
  rcases List.mem_append.1 hmem with hmem | hmem
  · obtain ⟨b, hb, hclosed, hview⟩ := h userId view hmem
    have hne : view.id ≠ id := by
      intro heq
      rw [heq, hrow] at hb
      exact hclosed (Option.some.inj hb ▸ hactive)
    refine ⟨b, ?_, hclosed, hview⟩
    rw [Database.applyAll_append]
    exact (lookup_modify_ne (BetUpdate.row_id u) hne).trans hb
  · rw [List.mem_singleton] at hmem
    cases hmem

/-- A row that is closed is announced as it then is. -/
theorem Tells.tell {rows : List Write} {b : Bet} {userId : Uuid} (h : Tells s rows)
    (hb : (database.applyAll s rows).bet b.id = some b) (hclosed : b.status ≠ .ACTIVE) :
    Tells s (rows ++ [.notify (.betSettled userId (toBetView b))]) := by
  have hsame : ∀ id, (database.applyAll s
      (rows ++ [.notify (.betSettled userId (toBetView b))])).bet id =
        (database.applyAll s rows).bet id := by
    intro id
    rw [Database.applyAll_append]
    rfl
  intro userId' view hmem
  rw [hsame]
  rcases List.mem_append.1 hmem with hmem | hmem
  · exact h userId' view hmem
  · rw [List.mem_singleton] at hmem
    injection hmem with hmem
    injection hmem with _ hview
    subst hview
    exact ⟨b, hb, hclosed, rfl⟩

/-- A silent part leaves what a session tells right. -/
theorem telling_silent (hR : R.Regular) (h : Telling R f s) (ho : Onward R Silent f s f' s') :
    Telling R f' s' := by
  intro s'' hs''
  obtain ⟨rows, hrows, hsilent⟩ := ho.pending
  rw [hrows]
  exact (h s'' (ho.rely.trans hR (hs''.mono ho.kept))).more hsilent

/-- A transaction whose block ends where it may be committed. -/
theorem wp_toldTransaction {body : Action α}
    (h : wp database R toldTerms body f s (EndsTelling R f s)) :
    wp database R toldTerms (transaction body) f s fun _ _ _ => True := by
  refine wp_mono (fun _ _ _ _ => trivial) (wp_transaction_ready (wp_mono ?_ h))
  exact fun r f' s' hr a ha => (hr a ha).2

/-- A session without writes tells of no bet. -/
theorem telling_nil (hf : f.pending = []) : Telling R f s := by
  intro s' _
  show Tells s' f.pending
  rw [hf]
  exact Tells.silent (List.forall_mem_nil _)

variable (hO : Overlay R toldTerms)
include hO

/-- The session sees a bet that it has locked as it was. -/
theorem bet_onward (hlock : (.bet betId, .exclusive) ∈ f.held) (ho : Onward R Silent f s f' s') :
    (f'.view database s').bet betId = (f.view database s).bet betId := by
  obtain ⟨rows, hrows, hsilent⟩ := ho.pending
  unfold Standing.view
  rw [hrows, bet_silent hsilent, hO.bet_kept ho.rely hlock]

/-- A bet that is closed in a session stays so. -/
theorem Shut.silent (h : Shut betId f s) (ho : Onward R Silent f s f' s') : Shut betId f' s' := by
  refine ⟨ho.kept h.locked, fun row hrow => h.closed row ?_⟩
  rw [← bet_onward hO h.locked ho]
  exact hrow

/-- A part that is silent, before the rest. -/
theorem wp_thenSilent {β : Type} {p : Action β} {k : β → Action α}
    (hp : p.Within Silent fun w => w.isDraw = true) (hs : R.inv s)
    {Q : Post Db LockKey Write AppError α}
    (hk : ∀ a f' s', Onward R Silent f s f' s' → wp database R toldTerms (k a) f' s' Q)
    (herror : ∀ e f' s', Q (.error e) f' s') :
    wp database R toldTerms (p >>= k) f s Q := by
  refine wp_bind.2 (wp_mono (fun r f' s' h => ?_) (wp_within hO.lax hs hp))
  cases r with
  | ok a => exact hk a f' s' h
  | error e => exact herror e f' s'

/-- A row of a bet that is locked and closed is announced. -/
theorem wp_tell (h : Telling R f s) (hshut : Shut betId f s) {row : Bet}
    (hrow : (f.view database s).bet betId = some row) {userId : Uuid}
    {Q : Post Db LockKey Write AppError Unit}
    (hok : ∀ f' s', Later R f s f' s' → Telling R f' s' → f'.held = f.held → Q (.ok ()) f' s') :
    wp database R toldTerms (publish (.betSettled userId (toBetView row))) f s Q := by
  refine hO.put fun s' hs' => hok _ s' ⟨hs', List.Subset.refl _⟩ (fun s'' hs'' => ?_) rfl
  have hrely : Rely R f.held s s'' := hs'.trans hO.lax.regular hs''
  have hid : row.id = betId := lookup_key hrow
  refine (h s'' hrely).tell ?_ (hshut.closed row hrow)
  rw [hid, hO.bet_kept hrely hshut.locked]
  exact hrow

/-- The outcome of a bet that is locked and closed is announced. -/
theorem wp_publishBetOutcome_told (h : Telling R f s) (hshut : Shut betId f s)
    {userId walletId : Uuid} :
    wp database R toldTerms (publishBetOutcome betId userId walletId) f s (EndsTelling R f s) := by
  have hR := hO.lax.regular
  refine wp_bind.2 (wp_selectOnward fun f₁ s₁ h₁ => onValue_ok ?_)
  have hq₁ : Onward R Silent f s f₁ s₁ := h₁.mono fun _ hw => hw.elim
  cases hrow : (f₁.view database s₁).bet betId with
  | none => exact wp_throw endsTelling_error
  | some row =>
    refine wp_thenSilent hO getBalance_silent h₁.rely.inv (fun money f₂ s₂ h₂ => ?_)
      fun _ _ _ => endsTelling_error
    have hq₂ : Onward R Silent f s f₂ s₂ := hq₁.trans hR h₂
    have hrow₂ : (f₂.view database s₂).bet betId = some row := by
      rw [bet_onward hO (hq₁.kept hshut.locked) h₂]
      exact hrow
    refine wp_bind.2 (wp_tell hO (telling_silent hR h hq₂) (hshut.silent hO hq₂) hrow₂
      fun f₃ s₃ h₃ htelling _ => onValue_ok ?_)
    refine wp_mono (fun r f₄ s₄ h₄ _ _ => ⟨?_, telling_silent hR htelling h₄⟩)
      (wp_within hO.lax h₃.rely.inv (Within.put (silent_notify (by simp))))
    exact hq₂.toLater.trans hR (h₃.trans hR h₄.toLater)

/-- What follows a silent part, while a bet is shut. -/
theorem Shut.then {β : Type} {p : Action β} {k : β → Action α} (hshut : Shut betId f s)
    (hs : R.inv s) (h : Telling R f s) (hp : p.Within Silent fun w => w.isDraw = true)
    (hk : ∀ a f' s', R.inv s' → Telling R f' s' → Shut betId f' s' →
      wp database R toldTerms (k a) f' s' (EndsTelling R f' s')) :
    wp database R toldTerms (p >>= k) f s (EndsTelling R f s) := by
  have hR := hO.lax.regular
  refine wp_thenSilent hO hp hs (fun a f₁ s₁ h₁ => ?_) fun _ _ _ => endsTelling_error
  refine EndsTelling.wp_after hR h₁.toLater ?_
  exact hk a f₁ s₁ h₁.rely.inv (telling_silent hR h h₁) (hshut.silent hO h₁)

/-- A bet that is locked is shut, whether it was active or not. -/
theorem wp_closeBet_told {k : Option Bet → Action α} (hlock : (.bet betId, .exclusive) ∈ f.held)
    (h : Telling R f s) {u : BetUpdate} (hstatus : u.status ≠ .ACTIVE)
    (hk : ∀ found f' s', R.inv s' → Telling R f' s' → Shut betId f' s' →
      (∀ row, found = some row → (f'.view database s').bet betId = some row) →
      wp database R toldTerms (k found) f' s' (EndsTelling R f' s')) :
    wp database R toldTerms (updateActiveBet betId u >>= k) f s (EndsTelling R f s) := by
  have hR := hO.lax.regular
  refine wp_bind.2 (hO.updateActiveBet (fun f₁ s₁ h₁ hclosed => onValue_ok ?_)
    (fun f₁ s₁ row h₁ _ hpending _ hrow hactive => onValue_ok ?_) fun _ _ _ => endsTelling_error)
  · have hsilent : Onward R Silent f s f₁ s₁ := h₁.mono fun _ hw => hw.elim
    refine EndsTelling.wp_after hR h₁.toLater ?_
    exact hk none f₁ s₁ h₁.rely.inv (telling_silent hR h hsilent) ⟨h₁.kept hlock, hclosed⟩
      fun _ hnone => by cases hnone
  · have hview : (f₁.view database s₁).bet betId = some (u.row row) := by
      unfold Standing.view
      rw [hpending, Database.applyAll_append]
      exact lookup_modify_self (BetUpdate.row_id u) hrow
    refine EndsTelling.wp_after hR h₁ ?_
    refine hk _ f₁ s₁ h₁.rely.inv (fun s₂ h₂ => ?_) ⟨h₁.kept hlock, fun row' hrow' => ?_⟩ ?_
    · rw [hpending]
      refine (h s₂ (h₁.rely.trans hR (h₂.mono h₁.kept))).update ?_ hactive
      rw [hO.bet_kept h₂ (h₁.kept hlock)]
      exact hrow
    · rw [hview] at hrow'
      rw [← Option.some.inj hrow']
      exact hstatus
    · rintro row' heq
      rw [hview, ← Option.some.inj heq]

/-! ## Bets that are closed -/

/-- What is told of a lost bet is what its row says. -/
theorem settleLostBet_told {b : Bet} (hlock : (.bet b.id, .exclusive) ∈ f.held)
    (h : Telling R f s) :
    wp database R toldTerms (settleLostBet b) f s (EndsTelling R f s) := by
  refine wp_bind.2 (wp_read fun x => onValue_ok ?_)
  refine wp_closeBet_told hO hlock h (by simp) fun _ f₁ s₁ hs₁ h₁ hshut₁ _ => ?_
  refine hshut₁.then hO hs₁ h₁ postEnlisted_silent fun _ f₂ s₂ hs₂ h₂ hshut₂ => ?_
  refine hshut₂.then hO hs₂ h₂ getWalletAccountId_silent
    fun walletId f₃ s₃ hs₃ h₃ hshut₃ => ?_
  exact wp_publishBetOutcome_told hO h₃ hshut₃

/-- What is told of a won bet is what its row says. -/
theorem settleWonBet_told {b : Bet} {oddsBp : ℤ} (hlock : (.bet b.id, .exclusive) ∈ f.held)
    (h : Telling R f s) :
    wp database R toldTerms (settleWonBet b oddsBp) f s (EndsTelling R f s) := by
  refine wp_bind.2 (wp_check ?_)
  cases basisPointsFromRaw oddsBp with
  | error e => exact endsTelling_error
  | ok multiplier =>
  refine onValue_ok (wp_bind.2 (wp_check ?_))
  cases b.stakeMinor.applyMultiplier multiplier with
  | error e => exact endsTelling_error
  | ok payout =>
  refine onValue_ok (wp_bind.2 (wp_check ?_))
  cases Money.sub payout b.stakeMinor with
  | error e => exact endsTelling_error
  | ok profit =>
  refine onValue_ok (wp_bind.2 (wp_read fun x => onValue_ok ?_))
  refine wp_closeBet_told hO hlock h (by simp) fun _ f₁ s₁ hs₁ h₁ hshut₁ _ => ?_
  refine hshut₁.then hO hs₁ h₁ getWalletAccountId_silent
    fun walletId f₂ s₂ hs₂ h₂ hshut₂ => ?_
  refine hshut₂.then hO hs₂ h₂ postEnlisted_silent fun _ f₃ s₃ hs₃ h₃ hshut₃ => ?_
  refine hshut₃.then hO hs₃ h₃ Within.select fun _ f₄ s₄ hs₄ h₄ hshut₄ => ?_
  refine hshut₄.then hO hs₄ h₄ Within.select fun _ f₅ s₅ hs₅ h₅ hshut₅ => ?_
  refine hshut₅.then hO hs₅ h₅ (Within.put (silent_notify (by simp)))
    fun _ f₆ s₆ hs₆ h₆ hshut₆ => ?_
  exact wp_publishBetOutcome_told hO h₆ hshut₆

/-- Whichever of the two it is. -/
theorem settleBet_told {r : Round} {b : Bet} (hlock : (.bet b.id, .exclusive) ∈ f.held)
    (h : Telling R f s) :
    wp database R toldTerms (settleBet r b) f s (EndsTelling R f s) := by
  unfold settleBet
  cases r.game with
  | CRASH => exact settleLostBet_told hO hlock h
  | ROULETTE =>
    refine wp_bind.2 (wp_check ?_)
    cases b.winsAt (r.winningPocket.getD 0) with
    | error e => exact endsTelling_error
    | ok won =>
      cases won with
      | none => exact settleLostBet_told hO hlock h
      | some odds => exact settleWonBet_told hO hlock h

/-- What is told of a refunded bet is what its row says. -/
theorem refundBet_told {b : Bet} (hlock : (.bet b.id, .exclusive) ∈ f.held) (h : Telling R f s) :
    wp database R toldTerms (refundBet b) f s (EndsTelling R f s) := by
  refine wp_bind.2 (wp_read fun x => onValue_ok ?_)
  refine wp_closeBet_told hO hlock h (by simp) fun _ f₁ s₁ hs₁ h₁ hshut₁ _ => ?_
  refine hshut₁.then hO hs₁ h₁ getWalletAccountId_silent
    fun walletId f₂ s₂ hs₂ h₂ hshut₂ => ?_
  refine hshut₂.then hO hs₂ h₂ postEnlisted_silent fun _ f₃ s₃ hs₃ h₃ hshut₃ => ?_
  exact wp_publishBetOutcome_told hO h₃ hshut₃

/-- What is told of a bet that is cashed out is what its row says. -/
theorem payCashOut_told {input : CashOutInput} {b : Bet} {game : GameKind} {now : Time}
    {multiplierBp : ℤ} (hlock : (.bet b.id, .exclusive) ∈ f.held) (h : Telling R f s) :
    wp database R toldTerms (payCashOut input b game now multiplierBp) f s (EndsTelling R f s) := by
  have hR := hO.lax.regular
  refine wp_bind.2 (wp_check ?_)
  cases basisPointsFromRaw multiplierBp with
  | error e => exact endsTelling_error
  | ok multiplier =>
  refine onValue_ok (wp_bind.2 (wp_check ?_))
  cases b.stakeMinor.applyMultiplier multiplier with
  | error e => exact endsTelling_error
  | ok payout =>
  refine onValue_ok (wp_bind.2 (wp_check ?_))
  cases Money.sub payout b.stakeMinor with
  | error e => exact endsTelling_error
  | ok profit =>
  refine onValue_ok (wp_closeBet_told hO hlock h (by simp) fun found f₁ s₁ hs₁ h₁ hshut hrow => ?_)
  cases found with
  | none => exact wp_throw endsTelling_error
  | some updated =>
  -- the row that is told is the one that was written, whatever is done in between
  refine wp_thenSilent hO getWalletAccountId_silent hs₁ (fun walletId f₂ s₂ h₂ => ?_)
    fun _ _ _ => endsTelling_error
  refine wp_thenSilent hO postEnlisted_silent h₂.rely.inv
    (fun _ f₃ s₃ h₃ => ?_) fun _ _ _ => endsTelling_error
  refine wp_thenSilent hO Within.select h₃.rely.inv (fun _ f₄ s₄ h₄ => ?_)
    fun _ _ _ => endsTelling_error
  refine wp_thenSilent hO getBalance_silent
    h₄.rely.inv (fun _ f₅ s₅ h₅ => ?_) fun _ _ _ => endsTelling_error
  refine wp_thenSilent hO (Within.put (silent_notify (by simp))) h₅.rely.inv
    (fun _ f₆ s₆ h₆ => ?_) fun _ _ _ => endsTelling_error
  refine wp_thenSilent hO (Within.put (silent_notify (by simp))) h₆.rely.inv
    (fun _ f₇ s₇ h₇ => ?_) fun _ _ _ => endsTelling_error
  have ho : Onward R Silent f₁ s₁ f₇ s₇ :=
    ((((h₂.trans hR h₃).trans hR h₄).trans hR h₅).trans hR h₆).trans hR h₇
  have hrow₇ : (f₇.view database s₇).bet b.id = some updated := by
    rw [bet_onward hO hshut.locked ho]
    exact hrow updated rfl
  refine wp_bind.2 (wp_tell hO (telling_silent hR h₁ ho) (hshut.silent hO ho) hrow₇
    fun f₈ s₈ h₈ htelling _ => onValue_ok (wp_pure fun _ _ => ⟨ho.toLater.trans hR h₈, htelling⟩))

/-- So it is on every branch that closes the bet. -/
theorem cashOutActive_told {input : CashOutInput} {b : Bet}
    (hlock : (.bet b.id, .exclusive) ∈ f.held) (h : Telling R f s) :
    wp database R toldTerms (cashOutActive input b) f s (EndsTelling R f s) := by
  have hR := hO.lax.regular
  refine wp_bind.2 (wp_selectOnward fun f₁ s₁ h₁ => onValue_ok ?_)
  cases (f₁.view database s₁).round b.roundId with
  | none => exact wp_throw endsTelling_error
  | some round =>
    dsimp only
    split
    · split
      · refine wp_bind.2 (wp_read fun x => onValue_ok ?_)
        split
        · exact wp_throw endsTelling_error
        · refine EndsTelling.wp_after hR h₁.toLater (payCashOut_told hO (h₁.kept hlock) ?_)
          exact telling_silent hR h (h₁.mono fun _ hw => hw.elim)
      · exact wp_throw endsTelling_error
    · exact wp_throw endsTelling_error

/-- The bets of a round are closed one by one, and then the round itself. -/
theorem wp_closeRound_told {roundId : Uuid} (body : Bet → Action Unit)
    (from_ : RoundStatus → Bool) (u : Time → RoundUpdate) (hf : f.pending = [])
    (hbody : ∀ b f' s', (.bet b.id, .exclusive) ∈ f'.held → Telling R f' s' →
      wp database R toldTerms (body b) f' s' (EndsTelling R f' s')) :
    wp database R toldTerms
      (do
        let activeBets ← lockActiveBets roundId
        forEach body activeBets
        let x ← read
        let _ ← updateRoundWhere roundId from_ (u x.now)
        publish (.roundState roundId)) f s (EndsTelling R f s) := by
  have hR := hO.lax.regular
  refine wp_bind.2 (hO.lockActiveBets (by rw [hf]; rfl) fun found f₁ s₁ h₁ hfound => onValue_ok ?_)
  have hstart : Telling R f₁ s₁ := fun s' hs' => by
    rw [h₁.still, hf]
    exact Tells.silent (List.forall_mem_nil _)
  refine wp_bind.2 (wp_forEach (fun _ f' s' => Later R f₁ s₁ f' s' ∧ Telling R f' s') []
    ⟨⟨.refl hR h₁.rely.inv _, List.Subset.refl _⟩, hstart⟩ (fun done b after hsplit f₂ s₂ h₂ => ?_)
    fun f₂ s₂ h₂ => onValue_ok ?_)
  · have hb : b ∈ found := by
      rw [List.nil_append] at hsplit
      exact hsplit ▸ List.mem_append_right _ List.mem_cons_self
    refine wp_mono (fun res f₃ s₃ h₃ => ?_)
      (hbody b f₂ s₂ (h₂.1.kept (hfound b hb).locked) h₂.2)
    cases res with
    | error e => exact endsTelling_error
    | ok _ => exact ⟨h₂.1.trans hR (h₃ _ rfl).1, (h₃ _ rfl).2⟩
  · refine wp_bind.2 (wp_read fun x => onValue_ok ?_)
    refine EndsTelling.wp_after hR (h₁.toLater.trans hR h₂.1) ?_
    refine wp_thenSilent hO (updateRoundWhere_touches.within_silent (by simp) (by simp))
      h₂.1.rely.inv (fun _ f₃ s₃ h₃ => ?_) fun _ _ _ => endsTelling_error
    refine wp_mono (fun r f₄ s₄ h₄ _ _ => ?_)
      (wp_within hO.lax h₃.rely.inv (Within.put (silent_notify (by simp))))
    have ho := h₃.trans hR h₄
    exact ⟨ho.toLater, telling_silent hR h₂.2 ho⟩

/-! ## Calls -/

/-- What `cashOut` tells of a bet is what it commits. -/
theorem cashOut_told {input : CashOutInput} :
    wp database R toldTerms (cashOut input) {} s fun _ _ _ => True := by
  have hR := hO.lax.regular
  refine wp_toldTransaction (wp_bind.2 (hO.selectForLock (.bet input.betId) (fun s row hrow => ?_)
    (fun f₁ s₁ h₁ _ => onValue_ok (wp_throw endsTelling_error))
    fun f₁ s₁ b h₁ hlock hrow => onValue_ok ?_))
  · obtain ⟨hfound, -⟩ := Option.filter_eq_some_iff.1 hrow
    exact congrArg LockKey.bet (lookup_key hfound)
  · obtain ⟨hfound, -⟩ := Option.filter_eq_some_iff.1 hrow
    have hid : b.id = input.betId := lookup_key hfound
    have hnothing : Telling R f₁ s₁ := telling_nil h₁.still
    dsimp only
    cases b.status with
    | ACTIVE =>
      rw [← hid] at hlock
      exact EndsTelling.wp_after hR h₁.toLater (cashOutActive_told hO hlock hnothing)
    | WON => exact wp_pure fun _ _ => ⟨h₁.toLater, hnothing⟩
    | LOST => exact wp_throw endsTelling_error
    | VOIDED => exact wp_throw endsTelling_error

section
variable {roundId : Uuid} (hf : f.pending = [])
include hf

/-- So is what `settleRound` tells. -/
theorem settleRound_told :
    wp database R toldTerms (settleRound roundId) f s fun _ _ _ => True := by
  have hR := hO.lax.regular
  refine wp_toldTransaction (wp_bind.2 (hO.selectForLock (.round roundId)
    (fun _ _ hrow => congrArg LockKey.round (lookup_key hrow))
    (fun f₁ s₁ h₁ _ => onValue_ok (wp_pure fun _ _ =>
      ⟨h₁.toLater, telling_nil (h₁.still.trans hf)⟩))
    fun f₁ s₁ row h₁ _ _ => onValue_ok ?_))
  dsimp only
  split
  · exact wp_pure fun _ _ => ⟨h₁.toLater, telling_nil (h₁.still.trans hf)⟩
  · exact EndsTelling.wp_after hR h₁.toLater (wp_closeRound_told hO (settleBet row) (· == .RESOLVED)
      (fun now => { status := .SETTLED, settledAt := some now }) (h₁.still.trans hf)
      fun b f₂ s₂ hlock h₂ => settleBet_told hO hlock h₂)

/-- So is what `voidRound` tells. -/
theorem voidRound_told :
    wp database R toldTerms (voidRound roundId) f s fun _ _ _ => True := by
  have hR := hO.lax.regular
  refine wp_toldTransaction (wp_bind.2 (hO.selectForLock (.round roundId)
    (fun _ _ hrow => congrArg LockKey.round (lookup_key hrow))
    (fun f₁ s₁ h₁ _ => onValue_ok (wp_pure fun _ _ =>
      ⟨h₁.toLater, telling_nil (h₁.still.trans hf)⟩))
    fun f₁ s₁ row h₁ _ _ => onValue_ok ?_))
  dsimp only
  split
  · exact wp_pure fun _ _ => ⟨h₁.toLater, telling_nil (h₁.still.trans hf)⟩
  · exact EndsTelling.wp_after hR h₁.toLater (wp_closeRound_told hO refundBet (fun _ => true)
      (fun now => { status := .VOIDED, settledAt := some now, seedRevealed := some row.seed })
      (h₁.still.trans hf) fun b f₂ s₂ hlock h₂ => refundBet_told hO hlock h₂)

/-- A call that tells of no bet that is closed. -/
theorem mute_told {p : Action α}
    (hp : p.Writes (fun _ => []) Mute (fun w => w.isDraw = true) f.held) :
    wp database R toldTerms p f s fun _ _ _ => True := by
  refine wp_mono (fun _ _ _ _ => trivial) (hO.untouched (fun s rows hrows => ?_) hp ?_)
  · exact fun userId view hmem => absurd rfl (hrows _ hmem userId view)
  · rw [hf]
    exact List.forall_mem_nil _

variable {config : Config} {crypto : Crypto}

/-- So is what a tick tells. -/
theorem tickGame_told {game : GameKind} :
    wp database R toldTerms (tickGame config crypto game) f s fun _ _ _ => True := by
  have hN : ∀ w, (fun _ : Write => ([] : List (LockKey × LockMode))) w ⊆ needs w :=
    fun _ => List.nil_subset _
  refine wp_bind.2 (wp_selectOnward fun f₁ s₁ h₁ => onValue_ok ?_)
  have hf₁ : f₁.pending = [] := h₁.still.trans hf
  cases liveRoundOf game (f₁.view database s₁) with
  | none =>
    refine wp_bind.2 (wp_mono (fun r _ _ _ => ?_) (mute_told hO hf₁ (openRoundIfDue_writes hN
      (fun _ => by simp [Mute]) (fun _ => by simp [Mute]) (fun _ => by simp [Mute]) rfl)))
    cases r with
    | ok id => trivial
    | error e => trivial
  | some live =>
    refine wp_bind.2 (wp_read fun x => onValue_ok ?_)
    dsimp only
    cases live.status with
    | OPEN =>
      dsimp only
      split
      · exact mute_told hO hf₁ (lockRound_writes hN (fun _ => by simp [Mute])
          fun _ _ => by simp [Mute])
      · exact wp_pure trivial
    | LOCKED =>
      exact mute_told hO hf₁ (startRound_writes hN (fun _ => by simp [Mute])
        fun _ _ => by simp [Mute])
    | RUNNING =>
      cases live.startedAt with
      | none => exact wp_pure trivial
      | some startedAt =>
        dsimp only
        split
        · exact voidRound_told hO hf₁
        · split
          · exact mute_told hO hf₁ (resolveRound_writes hN (fun _ => by simp [Mute])
              fun _ _ => by simp [Mute])
          · exact wp_pure trivial
    | RESOLVED => exact settleRound_told hO hf₁
    | SETTLED => exact wp_pure trivial
    | VOIDED => exact wp_pure trivial

end

variable {config : Config} {crypto : Crypto}

/-- What every call tells of bets is what their rows say. -/
theorem call_told (c : Call) :
    wp database R toldTerms (program config crypto c) {} s fun _ _ _ => True := by
  have hN : ∀ w, (fun _ : Write => ([] : List (LockKey × LockMode))) w ⊆ needs w :=
    fun _ => List.nil_subset _
  have hmute : ∀ {p : Action Reply}, p.Writes (fun _ => []) Mute (fun w => w.isDraw = true) [] →
      wp database R toldTerms p {} s fun _ _ _ => True :=
    fun h => mute_told hO rfl h
  have hreply : ∀ {β : Type} {g : β → Reply} {p : Action β},
      (wp database R toldTerms p {} s fun _ _ _ => True) →
        wp database R toldTerms (g <$> p) {} s fun _ _ _ => True :=
    fun h => wp_map (wp_mono (fun _ _ _ _ => trivial) h)
  cases c with
  | register dto =>
    exact hmute (Writes.imp (fun _ hw => mute_of_table (tables_ne hw (by simp)))
      (Writes.map register_writes))
  | login dto => exact hmute (Writes.map (login_writes hN fun _ => by simp [Mute]))
  | refresh rawToken =>
    exact hmute (Writes.map (refresh_writes hN (fun _ => by simp [Mute])
      fun _ _ => by simp [Mute]))
  | logout rawToken => exact hmute (Writes.map (logout_writes hN fun _ _ => by simp [Mute]))
  | placeBet input => exact hmute (Writes.map placeBet_mute)
  | cashOut input => exact hreply (cashOut_told hO)
  | openRoundIfDue game =>
    exact hmute (Writes.map (openRoundIfDue_writes hN (fun _ => by simp [Mute])
      (fun _ => by simp [Mute]) (fun _ => by simp [Mute]) rfl))
  | lockRound roundId =>
    exact hmute (Writes.map (lockRound_writes hN (fun _ => by simp [Mute])
      fun _ _ => by simp [Mute]))
  | startRound roundId =>
    exact hmute (Writes.map (startRound_writes hN (fun _ => by simp [Mute])
      fun _ _ => by simp [Mute]))
  | resolveRound roundId =>
    exact hmute (Writes.map (resolveRound_writes hN (fun _ => by simp [Mute])
      fun _ _ => by simp [Mute]))
  | settleRound roundId => exact hreply (settleRound_told hO rfl)
  | voidRound roundId => exact hreply (voidRound_told hO rfl)
  | tickGame game => exact hreply (tickGame_told hO rfl)

end

/-! ## The whole system -/

section
variable {config : Config} {crypto : Crypto}

/-- The notifications as a layer on the books: every call keeps its terms. -/
theorem told_layer : Layer database (books config) Told (fun _ _ => True)
    (program config crypto) (terms config) (fun _ => toldTerms) fun _ _ _ _ _ => True where
  refl _ := trivial
  trans _ _ := trivial
  commits hs htold h htells := by
    obtain ⟨es, rfl, hdone, -⟩ := h
    exact ⟨htold.after htells (hdone.keeps hs).2, trivial⟩
  draws {_ s row} _ htold hdraws _ := by
    rcases hdraws with rfl | rfl <;> exact ⟨htold.of_eq rfl rfl, trivial⟩
  stable _ _ _ _ _ _ _ _ := trivial
  lost _ _ _ _ := trivial
  start _ c s _ _ _ _ := by
    have hbase : Base ((books config).upon Told fun _ _ => True) :=
      (books_base config).upon (fun _ => trivial) (fun _ _ => trivial) fun {s w} hs hw => by
        have hsame := Write.isDraw_same hw s
        refine ⟨hs.of_eq hsame.1.bets ?_, trivial⟩
        cases w with
        | drawNonce => rfl
        | drawEntryId => rfl
        | _ => cases hw
    exact call_told (hbase.overlay _) c

/-- In every world reached what has been told of a bet is what its row says. -/
theorem reachable_told {w : System} (h : Reaches config crypto w) : Told w.db := by
  have hverified := (system_verified config crypto).upon told_layer
  have hadmits : ∀ (w : System) (e : Event Inputs Call),
      Admits (fun c => (terms config c).upon toldTerms) w e := by
    intro w e
    cases e with
    | start c => exact ⟨trivial, trivial⟩
    | run i x => exact fun _ _ => ⟨trivial, trivial⟩
    | kill i => trivial
  exact (World.Sound.run hverified (fun w e _ => hadmits w e) h
    (.idle ⟨migrated_consistent config, fun _ _ hmem => absurd hmem List.not_mem_nil⟩)).1.inv.2

end

end Tessera
