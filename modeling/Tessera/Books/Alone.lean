import Tessera.Books.Settling
import Tessera.Ledger.Order

/-!
# Closing bets with nobody else at work

A transaction that closes bets, run to its end by itself.  It succeeds as long as the database
accepts each posting and every balance that it reads is a safe integer; what it then commits follows
from the effects that it has made.

* `Alone` — where such a transaction stands, with the rules for its statements;
* `Alone.snoc`, `Alone.deferred` — one effect more, and the checks at the end;
* `accepts_of_fits` — a posting whose legs have one sign for each account;
* `Alone.closePost` — the posting that closes a bet;
* `Cleared`, `Cleared.close` — where the loop over the bets of a round stands.
-/

namespace Tessera

open Relational Transactions Transactions.Program

/-! ## Tables that are alike -/

namespace Alike
variable {s s' : Db}

theorem bet (h : Alike s s') (id : Uuid) : s'.bet id = s.bet id :=
  (congrArg (fun t : Db => t.bet id) h).symm

theorem bets (h : Alike s s') : s'.bets = s.bets :=
  (congrArg Db.bets h).symm

theorem round (h : Alike s s') (id : Uuid) : s'.round id = s.round id :=
  (congrArg (fun t : Db => t.round id) h).symm

theorem accountByKey (h : Alike s s') (key : AccountKey) : s'.accountByKey key = s.accountByKey key :=
  (congrArg (fun t : Db => t.accountByKey key) h).symm

end Alike

/-- Two parts one after the other have made the writes of both. -/
theorem Wrote.trans {f₀ f f' : Standing Db LockKey Write} {s₀ s s' : Db} {rows rows' : List Write}
    (h : Wrote f₀ s₀ rows f s) (h' : Wrote f s rows' f' s') : Wrote f₀ s₀ (rows ++ rows') f' s' := by
  refine ⟨?_, h.alike.trans h'.alike⟩
  rw [h'.pending, h.pending, List.append_assoc]

/-- The check constraints of a row hold, or the first that does not is reported. -/
theorem ends_assertChecks {A : Db → Inputs → Prop} {f : Standing Db LockKey Write} {s : Db}
    {violated : Option String} {Q : Post Db LockKey Write AppError Unit}
    (hok : violated = none → Q (.ok ()) f s)
    (herror : ∀ c, violated = some c → Q (.error (.checkViolation c)) f s) :
    ends database A (assertChecks violated) f s Q := by
  cases violated with
  | none => exact hok rfl
  | some c => exact herror c rfl

/-! ## Where a transaction stands -/

/-- The journal row is there, and it balances. -/
def Db.Squared (s : Db) (transactionId : Uuid) : Prop :=
  transactionId ∈ s.transactions.map Transaction.id ∧
    s.assertTransactionBalanced transactionId = .ok ()

/-- A transaction that closes bets by itself has made the writes of some effects, and then some
more. -/
structure Alone (config : Config) (s₀ : Db) (es : List Effect) (more : List Write)
    (f : Standing Db LockKey Write) (s : Db) : Prop where
  wrote : Wrote {} s₀ (rowsOf es ++ more) f s
  done : Done config s₀ es
  ranged : Ranged (database.applyAll s₀ (rowsOf es))
  squared : ∀ e, .insertEntry e ∈ rowsOf es →
    (database.applyAll s₀ (rowsOf es)).Squared e.transactionId

section
variable {config : Config} {f f' : Standing Db LockKey Write} {s s' s₀ : Db}
variable {es : List Effect} {more : List Write}

namespace Alone

/-- A transaction starts with no writes. -/
theorem start (h : Ranged s₀) : Alone config s₀ [] [] {} s₀ :=
  ⟨.refl _ _, trivial, h, fun _ he => absurd he List.not_mem_nil⟩

/-- What the session sees is what its effects have made of the committed state. -/
theorem view (W : Alone config s₀ es more f s) :
    Alike (database.applyAll (database.applyAll s₀ (rowsOf es)) more) (f.view database s) := by
  have hview := W.wrote.view
  rw [Database.applyAll_append] at hview
  exact hview

/-- The effects so far keep the books consistent. -/
theorem inv (W : Alone config s₀ es more f s) (h₀ : Consistent config s₀) :
    Consistent config (database.applyAll s₀ (rowsOf es)) :=
  (W.done.keeps h₀).1

/-- Meanwhile nobody else commits; only the counter of the entries has moved. -/
theorem alike (W : Alone config s₀ es more f s) : Alike s₀ s := W.wrote.alike

/-- A read changes nothing. -/
theorem saw (W : Alone config s₀ es more f s) (v : Db) : Alone config s₀ es more (f.saw v) s :=
  { W with wrote := W.wrote.saw v }

/-- A lock changes nothing. -/
theorem locked (W : Alone config s₀ es more f s) (key : LockKey) (mode : LockMode) (v : Db) :
    Alone config s₀ es more (f.locked key mode v) s :=
  { W with wrote := W.wrote.locked key mode v }

/-- A write that is not yet part of an effect. -/
theorem write (W : Alone config s₀ es more f s) (w : Write) :
    Alone config s₀ es (more ++ [w]) (f.wrote w) s := by
  refine { W with wrote := ?_ }
  rw [← List.append_assoc]
  exact W.wrote.wrote w

/-- One effect more. -/
theorem snoc {e : Effect} (W : Alone config s₀ es e.rows f s)
    (he : e.Enabled config (database.applyAll s₀ (rowsOf es)))
    (hranged : Ranged (e.after (database.applyAll s₀ (rowsOf es))))
    (hold : ∀ id, (database.applyAll s₀ (rowsOf es)).Squared id →
      (e.after (database.applyAll s₀ (rowsOf es))).Squared id)
    (hnew : ∀ n, .insertEntry n ∈ e.rows →
      (e.after (database.applyAll s₀ (rowsOf es))).Squared n.transactionId) :
    Alone config s₀ (es ++ [e]) [] f s := by
  have hafter : database.applyAll s₀ (rowsOf (es ++ [e])) =
      e.after (database.applyAll s₀ (rowsOf es)) := by
    rw [rowsOf_snoc, Database.applyAll_append]
    rfl
  refine ⟨?_, W.done.snoc he, ?_, fun n hn => ?_⟩
  · rw [rowsOf_snoc, List.append_nil]
    exact W.wrote
  · rw [hafter]
    exact hranged
  · rw [hafter]
    rw [rowsOf_snoc] at hn
    rcases List.mem_append.1 hn with hn | hn
    · exact hold _ (W.squared n hn)
    · exact hnew n hn

/-- A write that leaves the ledger alone. -/
theorem aside {w : Write} {e : Effect} (W : Alone config s₀ es [] f s) (hrows : e.rows = [w])
    (he : e.Enabled config (database.applyAll s₀ (rowsOf es)))
    (hledger : w.table ≠ .ledger) (haccounts : w.table ≠ .accounts) :
    Alone config s₀ (es ++ [e]) [] (f.wrote w) s := by
  have W' : Alone config s₀ es e.rows (f.wrote w) s := hrows ▸ W.write w
  have hafter : ∀ v : Db, e.after v = v.apply w := fun v => by
    unfold Effect.after
    rw [hrows]
    rfl
  have hsame : ∀ v : Db, (v.apply w).balances = v.balances ∧
      (v.apply w).transactions = v.transactions ∧ (v.apply w).entries = v.entries := by
    intro v
    cases w <;> first
      | exact ⟨rfl, rfl, rfl⟩
      | exact absurd rfl hledger
      | exact absurd rfl haccounts
  refine W'.snoc he ?_ (fun id hid => ?_) fun n hn => ?_
  · intro id
    have hof : (e.after (database.applyAll s₀ (rowsOf es))).balanceOf id =
        (database.applyAll s₀ (rowsOf es)).balanceOf id := by
      rw [hafter]
      unfold Db.balanceOf Db.balance
      rw [(hsame _).1]
    rw [hof]
    exact W.ranged id
  · rw [hafter]
    unfold Db.Squared Db.assertTransactionBalanced Db.postings at hid ⊢
    rw [(hsame _).2.1, (hsame _).2.2]
    exact hid
  · rw [hrows, List.mem_singleton] at hn
    rw [← hn] at hledger
    exact absurd rfl hledger

/-- The deferred trigger accepts what the transaction has written. -/
theorem deferred (W : Alone config s₀ es [] f s) :
    database.deferred (f.view database s) f.pending = .ok () := by
  have hpending : f.pending = rowsOf es := by
    have h := W.wrote.pending
    rw [List.append_nil] at h
    exact h
  rw [hpending]
  refine (Alike.deferred W.view).2 (Db.deferred_eq_ok.2 fun e he => ?_)
  exact (W.squared e he).2

/-! ## Statements -/

/-- A `SELECT` returns what the effects so far have made of the committed state. -/
theorem select (W : Alone config s₀ es more f s) {α : Type} {look : Db → α}
    {Q : Post Db LockKey Write AppError α}
    (h : ∀ f', Alone config s₀ es more f' s → Q (.ok (look (f.view database s))) f' s) :
    ends database FreshId (Program.select look) f s Q :=
  ends_select (h _ (W.saw _))

/-- The wallet of a user is where it was. -/
theorem getWallet (W : Alone config s₀ es more f s) {userId w : Uuid}
    (hw : (database.applyAll s₀ (rowsOf es)).walletOf userId = some w)
    {Q : Post Db LockKey Write AppError Uuid}
    (h : ∀ f', Alone config s₀ es more f' s → Q (.ok w) f' s) :
    ends database FreshId (getWalletAccountId userId) f s Q := by
  refine ends_bind.2 (W.select fun f' W' => ?_)
  obtain ⟨a, ha, rfl⟩ := Db.walletOf_eq_some.1 hw
  rw [W.view.accountByKey, (Grows.applyAll _ more).accountByKey ha]
  exact h f' W'

/-- The balance is returned when it is a safe integer, and otherwise an error. -/
theorem getBalance (W : Alone config s₀ es [] f s) {id : Uuid}
    {Q : Post Db LockKey Write AppError Money}
    (h : ∀ money f', Js.isSafeInteger ((database.applyAll s₀ (rowsOf es)).balanceOf id) = true →
      money.minor = (database.applyAll s₀ (rowsOf es)).balanceOf id →
      Alone config s₀ es [] f' s → Q (.ok money) f' s)
    (herror : ∀ e f', Js.isSafeInteger ((database.applyAll s₀ (rowsOf es)).balanceOf id) ≠ true →
      Q (.error e) f' s) :
    ends database FreshId (getBalance id) f s Q := by
  refine ends_bind.2 (W.select fun f' W' => thenEnds_ok (ends_check ?_))
  have hof : (f.view database s).balanceOf id =
      (database.applyAll s₀ (rowsOf es)).balanceOf id := W.view.balanceOf id
  rw [hof]
  unfold readBigint
  split
  case isTrue hsafe => exact h _ f' hsafe rfl W'
  case isFalse hunsafe => exact herror _ f' hunsafe

/-- A notification is an effect of its own. -/
theorem publish (W : Alone config s₀ es [] f s) {e : RoundDomainEvent}
    {Q : Post Db LockKey Write AppError Unit}
    (h : ∀ f', Alone config s₀ (es ++ [.aside (.notify e)]) [] f' s → Q (.ok ()) f' s) :
    ends database FreshId (publish e) f s Q :=
  ends_put (h _ (W.aside rfl rfl (by simp [Write.table]) (by simp [Write.table])))

/-- An active bet that passes its check constraints is updated. -/
theorem updateActiveBet (W : Alone config s₀ es [] f s) {b : Bet} {u : BetUpdate}
    (hb : (database.applyAll s₀ (rowsOf es)).bet b.id = some b) (hactive : b.status = .ACTIVE)
    (hchecks : (u.row b).violated = none) {Q : Post Db LockKey Write AppError (Option Bet)}
    (h : ∀ f', Alone config s₀ es [.updateBet b.id u] f' s → Q (.ok (some (u.row b))) f' s) :
    ends database FreshId (updateActiveBet b.id u) f s Q := by
  have hfind : ((f.view database s).bet b.id).filter (fun b => b.status == .ACTIVE) = some b := by
    rw [W.view.bet, Database.applyAll_nil, hb, Option.filter_some, if_pos (by simp [hactive])]
  unfold Tessera.updateActiveBet
  refine ends_bind.2 (ends_selectForLock (fun hnone => ?_) fun row hrow => thenEnds_ok ?_)
  · rw [hfind] at hnone
    cases hnone
  · obtain rfl : b = row := Option.some.inj (hfind.symm.trans hrow)
    refine ends_bind.2 (ends_assertChecks (fun _ => thenEnds_ok ?_) fun c hc => ?_)
    · exact ends_bind.2 (ends_put (h _ (((W.saw _).locked _ _ _).write _)))
    · rw [hchecks] at hc
      cases hc

end Alone

/-! ## Postings -/

/-- The legs of an account are the amounts posted to it. -/
theorem mem_legsOf {postings : List Posting} {id : Uuid} {n : ℤ} :
    n ∈ legsOf postings id ↔ ∃ p ∈ postings, p.accountId = id ∧ p.amount.minor = n := by
  simp [legsOf, amounts, and_assoc]

/-- With legs of one sign for each account, the database accepts a posting that leaves allowed
balances. -/
theorem accepts_of_fits {v : Db} {postings : List Posting} (hnow : ∀ id, Fits v id (v.balanceOf id))
    (hamount : ∀ p ∈ postings, p.amount.minor ≠ 0) (hnamed : Named v postings)
    (hsign : ∀ id, OneSign (legsOf postings id))
    (hfits : ∀ p ∈ postings,
      Fits v p.accountId (v.balanceOf p.accountId + net postings p.accountId)) :
    Accepts v postings := by
  refine (accepts_iff v postings).2 ⟨hamount, hnamed, fun id => ?_⟩
  rw [(hsign id).affordable_iff (hnow id), ← net_eq_sum]
  by_cases hid : ∃ p ∈ postings, p.accountId = id
  · obtain ⟨p, hp, rfl⟩ := hid
    exact hfits p hp
  · rw [net_eq_zero fun p hp hpid => hid ⟨p, hp, hpid⟩, add_zero]
    exact hnow id

/-- Only the accounts and the balances matter. -/
theorem Accepts.of_eq {v v' : Db} {postings : List Posting} (h : Accepts v postings)
    (hbalances : v'.balances = v.balances) (haccounts : v'.accounts = v.accounts) :
    Accepts v' postings := by
  have hbalance : ∀ id, v'.balance id = v.balance id := fun id =>
    congrArg (lookup Balance.accountId · id) hbalances
  have haccount : ∀ id, v'.account id = v.account id := fun id =>
    congrArg (lookup Account.id · id) haccounts
  have hof : ∀ id, v'.balanceOf id = v.balanceOf id := fun id => by
    unfold Db.balanceOf
    rw [hbalance]
  refine ⟨h.amount, fun p hp => ?_, fun before p after hsplit => ?_⟩
  · rw [haccount]
    exact h.account p hp
  · have hpay := h.payable before p after hsplit
    refine ⟨?_, ?_, fun a ha hkind => ?_⟩
    · rw [hbalance]
      exact hpay.row
    · rw [hof]
      exact hpay.fits.range
    · rw [hof]
      rw [haccount] at ha
      exact hpay.fits.funded a ha hkind

/-- The balances after a posting that the database has accepted. -/
theorem Accepts.last_fits {v : Db} {postings : List Posting} (h : Accepts v postings)
    {p : Posting} (hp : p ∈ postings) :
    Fits v p.accountId (v.balanceOf p.accountId + net postings p.accountId) := by
  obtain ⟨-, -, haffordable⟩ := (accepts_iff v postings).1 h
  have hmem : p.amount.minor ∈ legsOf postings p.accountId := mem_legsOf.2 ⟨p, hp, rfl, rfl⟩
  rcases List.eq_nil_or_concat (legsOf postings p.accountId) with hnil | ⟨legs, last, hlast⟩
  · rw [hnil] at hmem
    exact absurd hmem List.not_mem_nil
  · rw [List.concat_eq_append] at hlast
    have hfits := haffordable p.accountId legs last [] hlast
    rw [net_eq_sum, hlast, List.sum_append, List.sum_singleton, ← add_assoc]
    exact hfits

/-- Balances that accept their postings fit after them. -/
theorem Accepts.ranged {v : Db} (hv : Ranged v) {p : Posted} (h : Accepts v p.postings) :
    Ranged (v.posted p) := by
  intro id
  have hrow : ∀ q ∈ p.postings, (v.balance q.accountId).isSome = true := fun q hq =>
    (((accepts_iff v p.postings).1 h).2.1 q hq).2
  rw [Db.balanceOf_posted hrow]
  by_cases hid : ∃ q ∈ p.postings, q.accountId = id
  · obtain ⟨q, hq, rfl⟩ := hid
    exact (h.last_fits hq).range
  · rw [net_eq_zero fun q hq hqid => hid ⟨q, hq, hqid⟩, add_zero]
    exact hv id

/-- In consistent books with balances in range every balance fits as it is. -/
theorem Consistent.now_fits {v : Db} (hv : Consistent config v) (hranged : Ranged v) (id : Uuid) :
    Fits v id (v.balanceOf id) :=
  ⟨hranged id, fun a ha hkind => hv.tidy id a ha hkind⟩

/-- Another posting leaves a balanced journal row as it is. -/
theorem Db.Squared.posted {v : Db} {p : Posted} (hmatch : p.Matches)
    (hfresh : (v.transactions.any fun t => t.id == p.transaction.id) = false) {id : Uuid}
    (h : v.Squared id) : (v.posted p).Squared id := by
  obtain ⟨t, ht, rfl⟩ := List.mem_map.1 h.1
  refine ⟨List.mem_map.2 ⟨t, List.mem_append_left _ ht, rfl⟩, ?_⟩
  have hbalanced := h.2
  unfold Db.assertTransactionBalanced at hbalanced ⊢
  rw [Db.posted_old hmatch hfresh ht]
  exact hbalanced

/-- The posting that closes a bet, after its row has been updated. -/
theorem Alone.closePost (h₀ : Consistent config s₀) {b : Bet} {u : BetUpdate} {w : Uuid}
    {kind : TransactionKind} {postings : List Posting}
    (W : Alone config s₀ es [.updateBet b.id u] f s)
    (hb : (database.applyAll s₀ (rowsOf es)).bet b.id = some b) (hactive : b.status = .ACTIVE)
    (hw : (database.applyAll s₀ (rowsOf es)).walletOf b.userId = some w)
    (hpayout : 0 ≤ u.payoutMinor.minor)
    (hrefund : u.status = .VOIDED → u.payoutMinor = b.stakeMinor)
    (hkind : u.status.settlement = some kind)
    (hbalanced : assertBalanced ⟨kind, postings, some ⟨"bet", b.id⟩⟩ = .ok ())
    (hsum : (amounts postings).sum = 0)
    (hnet : ∀ i, net postings i =
      (if i = w then u.payoutMinor.minor else 0) -
        (if i = escrowId then b.stakeMinor.minor else 0) +
        (if i = houseId then b.stakeMinor.minor - u.payoutMinor.minor else 0))
    {Q : Post Db LockKey Write AppError PostedTransaction}
    (hok : ∀ posted p f' s', Accepts (database.applyAll s₀ (rowsOf es)) postings →
      p.postings = postings → Alone config s₀ (es ++ [.close b.id u p]) [] f' s' →
      Q (.ok posted) f' s')
    (herror : ∀ e f' s', ¬Accepts (database.applyAll s₀ (rowsOf es)) postings → Alike s₀ s' →
      Q (.error e) f' s') :
    ends database FreshId (postEnlisted ⟨kind, postings, some ⟨"bet", b.id⟩⟩) f s Q := by
  have hv := W.inv h₀
  have hranged := W.ranged
  have hview := W.view
  have hlong := ((assertBalanced_iff _).1 hbalanced).1
  generalize hvdef : database.applyAll s₀ (rowsOf es) = v at hb hw hok herror hv hranged hview
  -- the update of the bet does not matter to the ledger
  have hupdated : Accepts (f.view database s) postings ↔ Accepts v postings := by
    rw [hview.eq]
    exact ⟨fun h => h.of_eq rfl rfl, fun h => h.of_eq rfl rfl⟩
  refine ends_bind.2 (ends_check ?_)
  rw [hbalanced]
  refine thenEnds_ok (ends_postInTransaction (fun _ _ h => h) ?_ fun e f' s' rows hreject hwrote => ?_)
  · intro p r f' s' hpkind hpref hpostings hmatch hfresh hid haccepts hwrote
    have haccepts' := hupdated.1 haccepts
    have hnew : (v.transactions.any fun t => t.id == p.transaction.id) = false := by
      unfold FreshId at hfresh
      rw [hview.transactions, hid] at hfresh
      exact hfresh
    have hclosed : Effect.after (.close b.id u p) v = (v.apply (.updateBet b.id u)).posted p :=
      applyAll_posted _ p
    have hsquared : ∀ id, v.Squared id → ((v.apply (.updateBet b.id u)).posted p).Squared id :=
      fun id hid => Db.Squared.posted (v := v.apply (.updateBet b.id u)) hmatch hnew hid
    refine hok _ p f' s' haccepts' hpostings (Alone.snoc ⟨?_, W.done, W.ranged, W.squared⟩ ?_ ?_
      (fun id hid => ?_) fun n hn => ?_)
    · have hall := W.wrote.trans hwrote
      rw [List.append_assoc] at hall
      exact hall
    all_goals rw [hvdef]
    · refine ⟨hpayout, fun hvoid b' hb' => ?_, ⟨b, hb, hactive, w, hw, fun i => ?_⟩, kind, hkind,
        hmatch, hnew, hpkind, hpref⟩
      · rw [hb] at hb'
        exact Option.some.inj hb' ▸ hrefund hvoid
      · rw [hpostings]
        exact hnet i
    · rw [hclosed]
      refine Accepts.ranged (v := v.apply (.updateBet b.id u)) hranged ?_
      rw [hpostings]
      exact haccepts'.of_eq rfl rfl
    · rw [hclosed]
      rw [hvdef] at hid
      exact hsquared id hid
    · rw [hclosed]
      have hn' : n ∈ p.entries := by simpa [Effect.rows, Posted.rows] using hn
      rw [hmatch.entry hn']
      refine ⟨List.mem_map.2 ⟨_, List.mem_append_right _ List.mem_cons_self, rfl⟩, ?_⟩
      refine (Db.posted_balanced_iff (s := v.apply (.updateBet b.id u)) hv.journalled.entries hmatch
        hnew).2 ⟨?_, ?_⟩
      · rw [← List.length_map Entry.amount, hmatch.amounts, List.length_map, hpostings]
        exact hlong
      · rw [hmatch.amounts, hpostings]
        exact hsum
  · exact herror e f' s' (fun h => hreject (hupdated.2 h)) (W.alike.trans hwrote.alike)

/-- The outcome of a bet is announced, with the balance of its owner. -/
theorem Alone.publishBetOutcome (W : Alone config s₀ es [] f s) {betId userId w : Uuid} {row : Bet}
    (hb : (database.applyAll s₀ (rowsOf es)).bet betId = some row)
    {Q : Post Db LockKey Write AppError Unit}
    (hok : ∀ e₁ e₂ f', Js.isSafeInteger ((database.applyAll s₀ (rowsOf es)).balanceOf w) = true →
      Alone config s₀ (es ++ [.aside (.notify e₁), .aside (.notify e₂)]) [] f' s → Q (.ok ()) f' s)
    (herror : ∀ e f', Js.isSafeInteger ((database.applyAll s₀ (rowsOf es)).balanceOf w) ≠ true →
      Q (.error e) f' s) :
    ends database FreshId (publishBetOutcome betId userId w) f s Q := by
  unfold Tessera.publishBetOutcome
  refine ends_bind.2 (W.select fun f₁ W₁ => thenEnds_ok ?_)
  rw [W.view.bet, Database.applyAll_nil, hb]
  refine ends_bind.2 (W₁.getBalance (fun money f₂ hsafe _ W₂ => thenEnds_ok ?_) herror)
  refine ends_bind.2 (W₂.publish fun f₃ W₃ => thenEnds_ok (W₃.publish fun f₄ W₄ => ?_))
  rw [List.append_assoc] at W₄
  exact hok _ _ f₄ hsafe W₄

/-! ## Locking -/

/-- The bets of a round that are active. -/
def Db.activeBets (s : Db) (roundId : Uuid) : List Bet :=
  s.bets.filter fun b => b.roundId == roundId && b.status == .ACTIVE

/-- The active bets of a round. -/
theorem Db.mem_activeBets {s : Db} {roundId : Uuid} {b : Bet} :
    b ∈ s.activeBets roundId ↔ b ∈ s.bets ∧ b.roundId = roundId ∧ b.status = .ACTIVE := by
  simp [Db.activeBets]

/-- Rows that are all still there are locked one by one. -/
theorem Alone.lockEach {rows : List Bet} {roundId : Uuid} :
    ∀ {f : Standing Db LockKey Write}, Alone config s₀ es [] f s →
    (∀ row ∈ rows, activeOn roundId row (database.applyAll s₀ (rowsOf es)) = some row) →
    ∀ {Q : Post Db LockKey Write AppError (List Bet)},
    (∀ f', Alone config s₀ es [] f' s → Q (.ok rows) f' s) →
    ends database FreshId (Program.lockEach (fun b : Bet => LockKey.bet b.id)
      (activeOn roundId) rows) f s Q := by
  induction rows with
  | nil => exact fun W _ _ hok => hok _ W
  | cons row rows ih =>
    intro f W hrows Q hok
    obtain ⟨hrow, hrows⟩ := List.forall_mem_cons.1 hrows
    have hseen : activeOn roundId row (f.view database s) = some row := by
      unfold activeOn at hrow ⊢
      rw [W.view.bet]
      exact hrow
    refine ends_bind.2 (ends_acquire (thenEnds_ok ?_))
    refine ends_bind.2 (ih (W.locked _ _ _) hrows fun f' W' => thenEnds_ok ?_)
    rw [hseen]
    exact hok f' W'

/-- The active bets of a round, in the order of the scan. -/
theorem Alone.lockActiveBets (W : Alone config s₀ es [] f s) {roundId : Uuid}
    (hkeyed : Keyed (database.applyAll s₀ (rowsOf es)))
    {Q : Post Db LockKey Write AppError (List Bet)}
    (hok : ∀ bets f', bets.Perm ((database.applyAll s₀ (rowsOf es)).activeBets roundId) →
      Alone config s₀ es [] f' s → Q (.ok bets) f' s) :
    ends database FreshId (lockActiveBets roundId) f s Q := by
  refine ends_bind.2 (ends_read fun x _ => thenEnds_ok (ends_bind.2 (W.select fun f₁ W₁ =>
    thenEnds_ok ?_)))
  rw [W.view.bets]
  have hperm := x.order.perm ((database.applyAll s₀ (rowsOf es)).activeBets roundId)
  refine W₁.lockEach (fun row hrow => ?_) fun f' W' => hok _ f' hperm W'
  obtain ⟨hmem, hround, hactive⟩ := Db.mem_activeBets.1 (hperm.mem_iff.1 hrow)
  exact activeOn_eq_some.2 ⟨lookup_of_mem hkeyed.bets hmem, hround, hactive⟩

/-! ## One bet after the other -/

/-- What closing a bet moves into an account. -/
def Bet.moves (s : Db) (b : Bet) (payout : ℤ) (id : Uuid) : ℤ :=
  (if s.walletOf b.userId = some id then payout else 0) -
    (if id = escrowId then b.stakeMinor.minor else 0) +
    (if id = houseId then b.stakeMinor.minor - payout else 0)

/-- The tables that have nothing to do with the closing of bets: the users, the rows of `accounts`,
the chains, the tokens and the sequence of the nonces. -/
structure SameElsewhere (s s' : Db) : Prop where
  users : s'.users = s.users
  accounts : s'.accounts = s.accounts
  chains : s'.chains = s.chains
  tokens : s'.tokens = s.tokens
  nonceSeq : s'.nonceSeq = s.nonceSeq

/-- Elsewhere nothing changes either when the counter of the entries moves on. -/
theorem SameElsewhere.alike {s s' s'' : Db} (h : SameElsewhere s s') (halike : Alike s' s'') :
    SameElsewhere s s'' where
  users := (congrArg Db.users halike).symm.trans h.users
  accounts := (congrArg Db.accounts halike).symm.trans h.accounts
  chains := (congrArg Db.chains halike).symm.trans h.chains
  tokens := (congrArg Db.tokens halike).symm.trans h.tokens
  nonceSeq := (congrArg Db.nonceSeq halike).symm.trans h.nonceSeq

/-- Where the loop over the bets of a round stands: some are closed, each as `Outcome` says and for
what `pay` says, and nothing else has changed. -/
structure Cleared (config : Config) (Outcome : Bet → BetUpdate → Prop) (pay : Bet → ℤ) (s₀ : Db)
    (bets : List Bet) (es : List Effect) (f : Standing Db LockKey Write) (s : Db) : Prop
    extends Alone config s₀ es [] f s where
  closed : ∀ b ∈ bets, ∃ u, Outcome b u ∧
    (database.applyAll s₀ (rowsOf es)).bet b.id = some (u.row b)
  others : ∀ id, id ∉ bets.map Bet.id → (database.applyAll s₀ (rowsOf es)).bet id = s₀.bet id
  moved : ∀ id, (database.applyAll s₀ (rowsOf es)).balanceOf id =
    s₀.balanceOf id + (bets.map fun b => b.moves s₀ (pay b) id).sum
  rounds : (database.applyAll s₀ (rowsOf es)).rounds = s₀.rounds
  elsewhere : SameElsewhere s₀ (database.applyAll s₀ (rowsOf es))

/-- The tables after a bet is closed and everyone is told. -/
theorem applyAll_close (s : Db) (es : List Effect) (b : Bet) (u : BetUpdate) (p : Posted)
    {told : List Effect} (htold : ∀ e ∈ told, ∃ n, e = Effect.aside (.notify n)) :
    ∃ delivered, database.applyAll s (rowsOf (es ++ .close b.id u p :: told)) =
      { ((database.applyAll s (rowsOf es)).apply (.updateBet b.id u)).posted p with
        delivered := delivered } := by
  have htelling : ∀ v : Db, ∃ delivered,
      database.applyAll v (rowsOf told) = { v with delivered := delivered } := by
    induction told with
    | nil => exact fun v => ⟨v.delivered, rfl⟩
    | cons e told ih =>
      intro v
      obtain ⟨n, rfl⟩ := htold e List.mem_cons_self
      obtain ⟨delivered, hlast⟩ := ih (fun e he => htold e (List.mem_cons_of_mem _ he))
        (v.apply (.notify n))
      rw [applyAll_rowsOf_cons]
      exact ⟨delivered, hlast⟩
  have hafter : Effect.after (.close b.id u p) (database.applyAll s (rowsOf es)) =
      ((database.applyAll s (rowsOf es)).apply (.updateBet b.id u)).posted p := applyAll_posted _ p
  rw [rowsOf_append, Database.applyAll_append, applyAll_rowsOf_cons, hafter]
  exact htelling _

variable {Outcome : Bet → BetUpdate → Prop} {pay : Bet → ℤ} {bets : List Bet}

namespace Cleared

/-- No bet has been closed at first. -/
theorem start (W : Alone config s₀ [] [] f s) : Cleared config Outcome pay s₀ [] [] f s where
  toAlone := W
  closed _ h := absurd h List.not_mem_nil
  others _ _ := rfl
  moved _ := (add_zero _).symm
  rounds := rfl
  elsewhere := ⟨rfl, rfl, rfl, rfl, rfl⟩

/-- Closing bets moves no wallet. -/
theorem walletOf (C : Cleared config Outcome pay s₀ bets es f s) (userId : Uuid) :
    (database.applyAll s₀ (rowsOf es)).walletOf userId = s₀.walletOf userId := by
  unfold Db.walletOf Db.accountByKey
  rw [C.elsewhere.accounts]

/-- One bet more. -/
theorem close (C : Cleared config Outcome pay s₀ bets es f s) {b : Bet} {u : BetUpdate} {p : Posted}
    {told : List Effect} {w : Uuid} (W : Alone config s₀ (es ++ .close b.id u p :: told) [] f' s')
    (htold : ∀ e ∈ told, ∃ n, e = Effect.aside (.notify n)) (houtcome : Outcome b u)
    (hpay : u.payoutMinor.minor = pay b) (hb : s₀.bet b.id = some b)
    (hnew : b.id ∉ bets.map Bet.id) (hw : s₀.walletOf b.userId = some w)
    (hrows : ∀ q ∈ p.postings,
      ((database.applyAll s₀ (rowsOf es)).balance q.accountId).isSome = true)
    (hnet : ∀ i, net p.postings i =
      (if i = w then u.payoutMinor.minor else 0) -
        (if i = escrowId then b.stakeMinor.minor else 0) +
        (if i = houseId then b.stakeMinor.minor - u.payoutMinor.minor else 0)) :
    Cleared config Outcome pay s₀ (bets ++ [b]) (es ++ .close b.id u p :: told) f' s' := by
  obtain ⟨delivered, hafter⟩ := applyAll_close s₀ es b u p htold
  have hbets : ∀ id, (database.applyAll s₀ (rowsOf (es ++ .close b.id u p :: told))).bet id =
      lookup Bet.id (modify Bet.id (database.applyAll s₀ (rowsOf es)).bets b.id u.row) id := by
    intro id
    rw [hafter]
    rfl
  have hbefore : (database.applyAll s₀ (rowsOf es)).bet b.id = some b :=
    (C.others b.id hnew).trans hb
  refine ⟨W, fun c hc => ?_, fun id hid => ?_, fun id => ?_, ?_, ?_⟩
  · rw [hbets]
    rcases List.mem_append.1 hc with hc | hc
    · obtain ⟨v, hv, hrow⟩ := C.closed c hc
      have hne : c.id ≠ b.id := fun heq => hnew (heq ▸ List.mem_map_of_mem hc)
      exact ⟨v, hv, (lookup_modify_ne (BetUpdate.row_id u) hne).trans hrow⟩
    · rw [List.mem_singleton.1 hc]
      exact ⟨u, houtcome, lookup_modify_self (BetUpdate.row_id u) hbefore⟩
  · rw [List.map_append, List.mem_append, not_or] at hid
    have hne : id ≠ b.id := fun heq => hid.2 (by simp [heq])
    rw [hbets]
    exact (lookup_modify_ne (BetUpdate.row_id u) hne).trans (C.others id hid.1)
  · have hposted : (database.applyAll s₀ (rowsOf (es ++ .close b.id u p :: told))).balanceOf id =
        (database.applyAll s₀ (rowsOf es)).balanceOf id + net p.postings id := by
      rw [hafter]
      exact Db.balanceOf_posted (s := (database.applyAll s₀ (rowsOf es)).apply (.updateBet b.id u))
        hrows id
    have hmoves : net p.postings id = b.moves s₀ (pay b) id := by
      rw [hnet, hpay]
      unfold Bet.moves
      rw [hw]
      simp only [Option.some.injEq, eq_comm]
    rw [hposted, hmoves, C.moved, List.map_append, List.sum_append]
    simp [add_assoc]
  · rw [hafter]
    exact C.rounds
  · rw [hafter]
    obtain ⟨husers, haccounts, hchains, htokens, hnonces⟩ := C.elsewhere
    exact ⟨husers, haccounts, hchains, htokens, hnonces⟩

end Cleared

/-- The status of the round is updated when none of its bets is active any more. -/
theorem Alone.updateRoundWhere (W : Alone config s₀ es [] f s) {roundId : Uuid}
    {from_ : RoundStatus → Bool} {u : RoundUpdate} {row : Round}
    (hrow : (database.applyAll s₀ (rowsOf es)).round roundId = some row)
    (hfrom : from_ row.status = true) (hstatus : u.status ≠ .OPEN)
    (hnone : (database.applyAll s₀ (rowsOf es)).NoneActive roundId)
    {Q : Post Db LockKey Write AppError ℕ}
    (hok : ∀ f', (u.row row).violated = none →
      Alone config s₀ (es ++ [.advance roundId u]) [] f' s → Q (.ok 1) f' s)
    (herror : ∀ e f', (u.row row).violated ≠ none → Q (.error e) f' s) :
    ends database FreshId (updateRoundWhere roundId from_ u) f s Q := by
  have hfind : ((f.view database s).round roundId).filter (fun r => from_ r.status) = some row := by
    rw [W.view.round, Database.applyAll_nil, hrow, Option.filter_some, if_pos hfrom]
  unfold Tessera.updateRoundWhere
  refine ends_bind.2 (ends_selectForLock (fun hmissing => ?_) fun found hfound => thenEnds_ok ?_)
  · rw [hfind] at hmissing
    cases hmissing
  · obtain rfl : row = found := Option.some.inj (hfind.symm.trans hfound)
    refine ends_bind.2 (ends_assertChecks (fun hchecks => thenEnds_ok ?_) fun c hc => ?_)
    · refine ends_bind.2 (ends_put (hok _ hchecks ?_))
      exact ((W.saw _).locked _ _ _).aside rfl ⟨hstatus, fun _ => hnone⟩ (by simp [Write.table])
        (by simp [Write.table])
    · refine herror _ _ ?_
      rw [hc]
      simp

end

end Tessera
