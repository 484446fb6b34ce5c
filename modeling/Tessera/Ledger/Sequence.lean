import Tessera.Books.System
import Tessera.Database.Parts
import Tessera.Transactions.Solo

/-!
# Sequences of ledger calls

Users and accounts are created and postings are made, one call after the other, with whatever
posting lists; a call commits, fails, or is stopped after some statement.

* `LedgerCall`, `LedgerRun` — the calls, and the states that a sequence of them leads to;
* `LedgerCommit`, `wp_ledgerCall` — what each call may commit;
* `Booked` — the books balance; `Kept` — with what it takes to keep them so;
* `ledger_integrity` — the books balance after every sequence, and a failed call changes nothing.

Source: `src/src/ledger/ledger.service.ts`, `migrations/1757900000000_initial-ledger.sql`.
-/

namespace Tessera

open Relational Transactions Transactions.Program

/-! ## Calls -/

/-- A user or an account is created, or a list of postings is made. -/
inductive LedgerCall
  | user (u : User)
  | account (a : Account)
  | wallet (userId : Uuid)
  | posting (input : PostInput)

namespace LedgerCall

/-- What a call returns. -/
def Result : LedgerCall → Type
  | .user _ | .account _ => Unit
  | .wallet _ => Uuid
  | .posting _ => PostedTransaction

/-- The program of a call, in a transaction of its own. -/
def program : (c : LedgerCall) → Action c.Result
  | .user u => autocommit (insertUser u)
  | .account a => autocommit (insertAccount a)
  | .wallet userId => autocommit (createWallet userId)
  | .posting asked => post asked

/-- The postings that a call asks for. -/
def postings : LedgerCall → List Posting
  | .posting asked => asked.postings
  | _ => []

end LedgerCall

/-- The committed state after a call that executes one statement for each reading. -/
def LedgerCall.after (c : LedgerCall) (xs : List Inputs) (s : Db) : Db :=
  (alone database xs c.program {} s).1

/-- The call has succeeded. -/
def LedgerCall.Succeeds (c : LedgerCall) (xs : List Inputs) (s : Db) : Prop :=
  ∃ result, (alone database xs c.program {} s).2.1 = .done (.ok result)

/-- The states that a sequence of calls leads to. -/
inductive LedgerRun (s₀ : Db) : Db → Prop
  | start : LedgerRun s₀ s₀
  | call {s : Db} (c : LedgerCall) (xs : List Inputs) : LedgerRun s₀ s → LedgerRun s₀ (c.after xs s)

/-! ## What a call may commit -/

/-- The rows that a call may commit. -/
inductive LedgerCommit (s : Db) : LedgerCall → List Write → Prop
  | user (u : User) : LedgerCommit s (.user u) [.insertUser u]
  | account {a : Account} : s.account a.id = none → s.balance a.id = none →
      LedgerCommit s (.account a) [.insertAccount a]
  | wallet {userId : Uuid} {a : Account} : s.account a.id = none → s.balance a.id = none →
      LedgerCommit s (.wallet userId) [.insertAccount a]
  | posting {input : PostInput} {p : Posted} : p.postings = input.postings → p.Matches →
      PostChecked p s →
      (s.posted p).assertTransactionBalanced p.transaction.id = .ok () →
      LedgerCommit s (.posting input) p.rows

/-- What may be committed does not depend on the counter of the entries. -/
theorem Alike.commit {s s' : Db} (h : Alike s s') {c : LedgerCall} {rows : List Write}
    (hc : LedgerCommit s c rows) : LedgerCommit s' c rows := by
  rw [h.eq]
  cases hc with
  | user u => exact .user u
  | account hfree hrow => exact .account hfree hrow
  | wallet hfree hrow => exact .wallet hfree hrow
  | posting hpostings hmatch hchecked hbalanced =>
    refine .posting hpostings hmatch ?_ hbalanced
    exact ⟨hchecked.fresh, hchecked.amount, hchecked.account, hchecked.balance,
      hchecked.protected_, hchecked.range⟩

/-- The terms of a call, when nobody else is at work. -/
def ledgerTerms (c : LedgerCall) : Terms Db LockKey Write :=
  { Terms.committing fun s rows => LedgerCommit s c rows with
    draws := fun _ w => w = .drawEntryId }

/-- Nobody else changes the tables. -/
abbrev quiet : Discipline Db LockKey Write := sequential Alike needs

/-- A client by itself sees only the counter of the entries move. -/
theorem quiet_regular : quiet.Regular := sequential_regular Alike.refl Alike.trans

/-- Its discipline respects the row locks. -/
theorem quiet_regime : Regime quiet where
  regular := quiet_regular
  needs _ := List.Subset.refl _
  same h := h.same _ _
  grows h := h.grows
  tidy _ _ := trivial
  draw _ := sequential_rely (.draw _) _

/-- The terms ask nothing of locks that are not on rows. -/
theorem ledgerTerms_fair (c : LedgerCall) : Fair (ledgerTerms c) where
  guard _ _ _ _ := trivial
  entryId _ := rfl

/-- What a call that succeeds has committed. -/
def Commits (c : LedgerCall) (s : Db) : Post Db LockKey Write AppError c.Result := fun r _ s' =>
  ∀ result, r = .ok result → ∃ rows, LedgerCommit s c rows ∧ Alike (database.applyAll s rows) s'

section
variable {c : LedgerCall} {s s' : Db} {f : Standing Db LockKey Write} {rows : List Write}
variable {locks : List (LockKey × LockMode)}

/-- At the end of a transaction. -/
theorem wp_commits {body : Action c.Result}
    (h : wp database quiet (ledgerTerms c) body {} s fun r f' s' => ∀ result, r = .ok result →
      ∃ locks rows, Progress quiet {} s locks rows (underLock fun _ _ => True) f' s' ∧
        ∀ s'', Alike s s'' → database.deferred (database.applyAll s'' rows) rows = .ok () →
          LedgerCommit s'' c rows) :
    wp database quiet (ledgerTerms c) (transaction body) {} s (Commits c s) := by
  refine wp_transaction (wp_mono (fun r f' s' hr => ?_) h)
  cases r with
  | error e => exact fun _ _ _ hok => by cases hok
  | ok result =>
    obtain ⟨locks, rows, P, hcommit⟩ := hr result rfl
    intro s'' hs'' _
    have halike : Alike s s'' := P.rely.grows.trans hs''.grows
    have hpending : f'.pending = rows := P.pending
    have hview : f'.view database s'' = database.applyAll s'' rows := by
      unfold Standing.view
      rw [hpending]
    rw [hview, hpending]
    refine ⟨fun hd => ⟨hcommit s'' halike hd, fun _ _ => ⟨rows, ?_, halike.applyAll rows⟩⟩,
      fun _ _ _ hok => by cases hok⟩
    exact Alike.commit (Eq.symm halike) (hcommit s'' halike hd)

/-- A session has made no progress at first. -/
theorem start_progress (s : Db) :
    Progress quiet {} s [] [] (underLock fun _ _ => True) ({} : Standing Db LockKey Write) s :=
  .refl quiet_regular trivial _

/-- What each call may commit, from any state. -/
theorem wp_ledgerCall (c : LedgerCall) (s : Db) :
    wp database quiet (ledgerTerms c) c.program {} s (Commits c s) := by
  have hguard : ∀ f k s, (ledgerTerms c).guard f k s := fun _ _ _ => trivial
  cases c with
  | user u =>
    refine wp_commits (wp_insertUser quiet_regime hguard (start_progress s)
      (fun f₁ s₁ _ P₁ _ _ _ => ⟨_, _, P₁, fun s'' _ _ => .user u⟩) ?_)
    intro e f₁ s₁ _ result hok
    cases hok
  | account a =>
    refine wp_commits (wp_insertAccount quiet_regime hguard (fun _ _ => trivial)
      (start_progress s) (fun f₁ s₁ h₁ P₁ hid _ hrow _ _ => ⟨_, _, P₁, fun s'' h'' _ => ?_⟩) ?_)
    · have hback : Alike s₁ s'' := Eq.trans (Eq.symm h₁.rely.grows) h''
      exact .account ((hback.account a.id).trans hid) ((hback.balance a.id).trans hrow)
    · intro e f₁ s₁ _ result hok
      cases hok
  | wallet userId =>
    refine wp_commits (wp_bind.2 (wp_read fun x => onValue_ok (wp_bind.2 (wp_insertAccount
      quiet_regime hguard (fun _ _ => trivial) (start_progress s) (fun f₁ s₁ h₁ P₁ hid _ hrow =>
        onValue_ok (wp_pure fun _ _ => ⟨_, _, P₁, fun s'' h'' _ => ?_⟩)) ?_))))
    · have hback : Alike s₁ s'' := Eq.trans (Eq.symm h₁.rely.grows) h''
      exact .wallet ((hback.account _).trans hid) ((hback.balance _).trans hrow)
    · intro e f₁ s₁ _ result hok
      cases hok
  | posting input =>
    refine wp_bind.2 (wp_check ?_)
    cases hbal : assertBalanced input with
    | error e => exact fun result hok => by cases hok
    | ok u =>
      have hlegs : input.postings ≠ [] := by
        intro hnil
        unfold assertBalanced at hbal
        rw [hnil] at hbal
        cases hbal
      refine onValue_ok (wp_commits (wp_postInTransaction (M := fun _ _ => True) quiet_regime
        (ledgerTerms_fair _) trivial (fun _ _ _ _ _ _ _ _ _ => trivial)
        (fun _ _ _ _ _ _ _ _ _ => trivial) ?_ ?_))
      · intro x p f₁ s₁ htx hpostings hmatch hchecked P₁ _ _
        refine ⟨_, _, P₁, fun s'' h'' hd => ?_⟩
        have hback : Alike s₁ s'' := Eq.trans (Eq.symm P₁.rely.grows) h''
        rw [applyAll_posted] at hd
        have hbalanced := Posted.balanced hmatch hd (by rw [hpostings]; exact hlegs)
        have hchecked' : PostChecked p s'' := by
          rw [hback.eq]
          exact ⟨hchecked.fresh, hchecked.amount, hchecked.account, hchecked.balance,
            hchecked.protected_, hchecked.range⟩
        exact .posting hpostings hmatch hchecked' hbalanced
      · intro x e f₁ s₁ _ _ _ result hok
        cases hok

/-- Wherever a call is stopped, what it has committed is what it may commit. -/
theorem call_trail (c : LedgerCall) (xs : List Inputs) (s : Db) :
    Trail database (ledgerTerms c) s (c.after xs s) :=
  (wp_alone Alike.refl (fun _ _ _ => trivial) (wp_ledgerCall c s)).1

/-- A call that succeeds has committed its rows once. -/
theorem LedgerCall.Succeeds.commits {xs : List Inputs} (h : c.Succeeds xs s) :
    ∃ rows, LedgerCommit s c rows ∧ Alike (database.applyAll s rows) (c.after xs s) := by
  obtain ⟨result, hdone⟩ := h
  have hresult : (alone database xs c.program {} s).2.1.result = some (.ok result) := by
    rw [hdone]
    rfl
  exact wp_alone_result Alike.refl (fun _ _ _ => trivial) (wp_ledgerCall c s) hresult result rfl

end

/-! ## The books balance -/

/-- The sum of the entries of an account. -/
def Db.entered (s : Db) (id : Uuid) : ℤ :=
  (s.entries.map fun e => if e.accountId = id then e.amount else 0).sum

/-- The books balance. -/
structure Booked (s : Db) : Prop where
  cached : ∀ id, s.balanceOf id = s.entered id
  balances : (s.balances.map Balance.balance).sum = 0
  entries : (s.entries.map Entry.amount).sum = 0
  transactions : ∀ t ∈ s.transactions, 2 ≤ (s.postings t.id).length ∧
    (∀ e ∈ s.postings t.id, e.amount ≠ 0) ∧ ((s.postings t.id).map Entry.amount).sum = 0
  funded : ∀ a ∈ s.accounts, a.kind = .WALLET ∨ a.kind = .ESCROW → 0 ≤ s.balanceOf a.id

/-- The books balance, each account has its balances row, and entries name what is there. -/
structure Kept (s : Db) : Prop extends Booked s where
  accounts : (s.accounts.map Account.id).Nodup
  rows : s.balances.map Balance.accountId = s.accounts.map Account.id
  journal : ∀ e ∈ s.entries, e.transactionId ∈ s.transactions.map Transaction.id
  named : ∀ e ∈ s.entries, (s.account e.accountId).isSome = true

/-- Wallets and escrow must not be overdrawn. -/
theorem AccountKind.neverNegative_iff (kind : AccountKind) :
    kind.neverNegative = true ↔ kind = .WALLET ∨ kind = .ESCROW := by
  cases kind <;> decide

/-- A change to other tables. -/
theorem Kept.of_eq {s s' : Db} (h : Kept s) (haccounts : s'.accounts = s.accounts)
    (htransactions : s'.transactions = s.transactions) (hentries : s'.entries = s.entries)
    (hbalances : s'.balances = s.balances) : Kept s' := by
  cases s
  cases s'
  dsimp only at haccounts htransactions hentries hbalances
  subst haccounts htransactions hentries hbalances
  exact ⟨⟨h.cached, h.balances, h.entries, h.transactions, h.funded⟩, h.accounts, h.rows, h.journal,
    h.named⟩

section
variable {s : Db} {p : Posted}

/-- A new account starts at zero. -/
theorem Db.balanceOf_insertAccount {a : Account} (hrow : s.balance a.id = none) (id : Uuid) :
    (s.apply (.insertAccount a)).balanceOf id = s.balanceOf id := by
  unfold Db.balanceOf
  by_cases hnew : a.id = id
  · have hadded : (s.apply (.insertAccount a)).balance a.id = some ⟨a.id, 0⟩ :=
      lookup_append_new hrow
    rw [← hnew, hrow, hadded]
    rfl
  · have hkept : (s.apply (.insertAccount a)).balance id = s.balance id := lookup_append_ne hnew
    rw [hkept]

/-- A new account has a balance of zero and no entries. -/
theorem Kept.insertAccount (h : Kept s) {a : Account} (hid : s.account a.id = none)
    (hrow : s.balance a.id = none) : Kept (s.apply (.insertAccount a)) := by
  have hbalance := Db.balanceOf_insertAccount hrow
  have hnew : a.id ∉ s.accounts.map Account.id := by
    intro hmem
    rw [← lookup_isSome] at hmem
    rw [show lookup Account.id s.accounts a.id = none from hid] at hmem
    cases hmem
  refine ⟨⟨fun id => (hbalance id).trans (h.cached id), ?_, h.entries, h.transactions, ?_⟩, ?_, ?_,
    h.journal, fun e he => ?_⟩
  · show ((s.balances ++ [(⟨a.id, 0⟩ : Balance)]).map Balance.balance).sum = 0
    rw [List.map_append, List.sum_append, h.balances]
    rfl
  · intro b hb hkind
    rw [hbalance]
    rcases List.mem_append.1 hb with hb | hb
    · exact h.funded b hb hkind
    · rw [List.mem_singleton.1 hb]
      unfold Db.balanceOf
      rw [hrow]
      exact le_refl 0
  · show ((s.accounts ++ [a]).map Account.id).Nodup
    rw [List.map_append]
    exact List.nodup_append.2 ⟨h.accounts, List.nodup_singleton _, fun x hx y hy hxy => by
      rw [hxy, List.mem_singleton.1 hy] at hx
      exact hnew hx⟩
  · show (s.balances ++ [(⟨a.id, 0⟩ : Balance)]).map Balance.accountId =
      (s.accounts ++ [a]).map Account.id
    rw [List.map_append, List.map_append, h.rows]
    rfl
  · obtain ⟨b, hb⟩ := Option.isSome_iff_exists.1 (h.named e he)
    have hfound : (s.apply (.insertAccount a)).account e.accountId = some b :=
      lookup_append_of_some hb [a]
    rw [hfound]
    rfl

/-! ## A posting keeps the books -/

/-- The entries of a journal row move what its postings say. -/
theorem Posted.Matches.net (h : p.Matches) (id : Uuid) :
    (p.entries.map fun e => if e.accountId = id then e.amount else 0).sum = net p.postings id := by
  have hmoves := congrArg (fun l => (l.map fun x : Uuid × Uuid × ℤ =>
    if x.2.1 = id then x.2.2 else 0).sum) h
  simp only [List.map_map, Function.comp_def] at hmoves
  exact hmoves

/-- Each entry of a journal row records a posting. -/
theorem Posted.Matches.posting (h : p.Matches) {e : Entry} (he : e ∈ p.entries) :
    ∃ q ∈ p.postings, e.accountId = q.accountId ∧ e.amount = q.amount.minor := by
  have hmem : (e.transactionId, e.accountId, e.amount) ∈
      p.postings.map fun q => (p.transaction.id, q.accountId, q.amount.minor) := by
    unfold Posted.Matches at h
    rw [← h]
    exact List.mem_map_of_mem he
  obtain ⟨q, hq, heq⟩ := List.mem_map.1 hmem
  simp only [Prod.mk.injEq] at heq
  exact ⟨q, hq, heq.2.1.symm, heq.2.2.symm⟩

/-- The postings of the new journal row are its entries. -/
theorem Db.posted_new
    (hjournal : ∀ e ∈ s.entries, e.transactionId ∈ s.transactions.map Transaction.id)
    (hmatch : p.Matches) (hfresh : (s.transactions.any fun t => t.id == p.transaction.id) = false) :
    (s.posted p).postings p.transaction.id = p.entries := by
  have hold : s.entries.filter (fun e => decide (e.transactionId = p.transaction.id)) = [] := by
    refine List.filter_eq_nil_iff.2 fun e he hid => ?_
    obtain ⟨t, ht, hte⟩ := List.mem_map.1 (hjournal e he)
    have hnone := List.any_eq_false.1 hfresh t ht
    exact hnone (by rw [beq_iff_eq, hte]; exact of_decide_eq_true hid)
  have hnew : p.entries.filter (fun e => decide (e.transactionId = p.transaction.id)) = p.entries :=
    List.filter_eq_self.2 fun e he => decide_eq_true (hmatch.entry he)
  show (s.entries ++ p.entries).filter _ = _
  rw [List.filter_append, hold, hnew, List.nil_append]

/-- The postings of the other journal rows stay what they are. -/
theorem Db.posted_old (hmatch : p.Matches)
    (hfresh : (s.transactions.any fun t => t.id == p.transaction.id) = false) {t : Transaction}
    (ht : t ∈ s.transactions) : (s.posted p).postings t.id = s.postings t.id := by
  have hne : p.transaction.id ≠ t.id := by
    intro hid
    have hnone := List.any_eq_false.1 hfresh t ht
    exact hnone (beq_iff_eq.2 hid.symm)
  have hnew : p.entries.filter (fun e => decide (e.transactionId = t.id)) = [] := by
    refine List.filter_eq_nil_iff.2 fun e he hid => hne ?_
    rw [← hmatch.entry he]
    exact of_decide_eq_true hid
  show (s.entries ++ p.entries).filter _ = _
  rw [List.filter_append, hnew, List.append_nil]
  rfl

/-- One of several distinct keys is counted once. -/
theorem sum_indicator {ids : List Uuid} (hnodup : ids.Nodup) {a : Uuid} (ha : a ∈ ids) (x : ℤ) :
    (ids.map fun id => if a = id then x else 0).sum = x := by
  induction ids with
  | nil => exact absurd ha List.not_mem_nil
  | cons id ids ih =>
    obtain ⟨hid, hrest⟩ := List.nodup_cons.1 hnodup
    rw [List.map_cons, List.sum_cons]
    by_cases heq : a = id
    · have hzero : (ids.map fun id => if a = id then x else 0).sum = 0 := by
        refine List.sum_eq_zero fun y hy => ?_
        obtain ⟨b, hb, rfl⟩ := List.mem_map.1 hy
        exact if_neg fun hab => hid (by rw [← heq, hab]; exact hb)
      rw [if_pos heq, hzero, add_zero]
    · rw [if_neg heq, zero_add]
      refine ih hrest ?_
      rcases List.mem_cons.1 ha with ha | ha
      · exact absurd ha heq
      · exact ha

/-- The movements of all accounts together are the amounts of the postings. -/
theorem sum_net {ids : List Uuid} (hnodup : ids.Nodup) {postings : List Posting}
    (h : ∀ q ∈ postings, q.accountId ∈ ids) :
    (ids.map (net postings)).sum = (postings.map fun q => q.amount.minor).sum := by
  induction postings with
  | nil =>
    refine List.sum_eq_zero fun x hx => ?_
    obtain ⟨id, -, rfl⟩ := List.mem_map.1 hx
    rfl
  | cons q rest ih =>
    have hsplit : net (q :: rest) = fun id =>
        (if q.accountId = id then q.amount.minor else 0) + net rest id :=
      funext fun id => net_cons q rest id
    rw [hsplit, List.sum_map_add, sum_indicator hnodup (h q List.mem_cons_self),
      ih fun r hr => h r (List.mem_cons_of_mem _ hr), List.map_cons, List.sum_cons]

/-- The balance of an account after a posting. -/
theorem Db.balanceOf_posted (hrows : ∀ q ∈ p.postings, (s.balance q.accountId).isSome = true)
    (id : Uuid) : (s.posted p).balanceOf id = s.balanceOf id + net p.postings id := by
  have hcredit : (s.posted p).balanceOf id = (s.credit p.postings).balanceOf id := rfl
  rw [hcredit]
  by_cases hrow : (s.balance id).isSome = true
  · exact Db.balanceOf_credit hrow p.postings
  · have hnone : net p.postings id = 0 := by
      refine net_eq_zero fun q hq hid => hrow ?_
      rw [← hid]
      exact hrows q hq
    rw [Db.balanceOf_credit_other s hnone, hnone, add_zero]

/-- The deferred trigger looks at the postings of the new journal row. -/
theorem Db.posted_balanced_iff
    (hjournal : ∀ e ∈ s.entries, e.transactionId ∈ s.transactions.map Transaction.id)
    (hmatch : p.Matches) (hfresh : (s.transactions.any fun t => t.id == p.transaction.id) = false) :
    (s.posted p).assertTransactionBalanced p.transaction.id = .ok () ↔
      2 ≤ p.entries.length ∧ (p.entries.map Entry.amount).sum = 0 := by
  unfold Db.assertTransactionBalanced
  rw [Db.posted_new hjournal hmatch hfresh]
  dsimp only
  by_cases hlegs : p.entries.length < 2
  · rw [if_pos hlegs]
    refine iff_of_false (by simp) fun h => ?_
    omega
  · rw [if_neg hlegs]
    by_cases hsum : (p.entries.map Entry.amount).sum = 0
    · rw [if_neg (not_not.2 hsum)]
      exact iff_of_true rfl ⟨not_lt.1 hlegs, hsum⟩
    · rw [if_pos hsum]
      exact iff_of_false (by simp) fun h => hsum h.2

/-- A posting that has been checked and balances keeps the books. -/
theorem Kept.posted (h : Kept s) (hmatch : p.Matches) (hchecked : PostChecked p s)
    (hbalanced : (s.posted p).assertTransactionBalanced p.transaction.id = .ok ()) :
    Kept (s.posted p) := by
  have hnew := Db.posted_new h.journal hmatch hchecked.fresh
  have hlegs := (Db.posted_balanced_iff h.journal hmatch hchecked.fresh).1 hbalanced
  have hamounts : (p.postings.map fun q => q.amount.minor).sum = 0 := by
    rw [← hmatch.amounts]
    exact hlegs.2
  refine ⟨⟨fun id => ?_, ?_, ?_, fun t ht => ?_, fun a ha hkind => ?_⟩, h.accounts, ?_, fun e he => ?_,
    fun e he => ?_⟩
  · rw [Db.balanceOf_posted hchecked.balance, h.cached]
    show _ = ((s.entries ++ p.entries).map _).sum
    rw [List.map_append, List.sum_append, hmatch.net]
    rfl
  · show ((s.balances.map fun b => b.add (net p.postings b.accountId)).map Balance.balance).sum = 0
    have hsplit : (s.balances.map fun b => b.add (net p.postings b.accountId)).map Balance.balance =
        s.balances.map fun b => b.balance + net p.postings b.accountId := by
      rw [List.map_map]
      rfl
    have hids : (s.balances.map fun b => net p.postings b.accountId) =
        (s.balances.map Balance.accountId).map (net p.postings) := by
      rw [List.map_map]
      rfl
    rw [hsplit, List.sum_map_add, h.balances, hids, h.rows, sum_net h.accounts, hamounts, add_zero]
    exact fun q hq => lookup_isSome.1 (hchecked.account q hq)
  · show ((s.entries ++ p.entries).map Entry.amount).sum = 0
    rw [List.map_append, List.sum_append, h.entries, hlegs.2, add_zero]
  · rcases List.mem_append.1 ht with ht | ht
    · rw [Db.posted_old hmatch hchecked.fresh ht]
      exact h.transactions t ht
    · rw [List.mem_singleton.1 ht, hnew]
      refine ⟨hlegs.1, fun e he => ?_, hlegs.2⟩
      obtain ⟨q, hq, -, hamount⟩ := hmatch.posting he
      rw [hamount]
      exact hchecked.amount q hq
  · rw [Db.balanceOf_posted hchecked.balance]
    by_cases hnamed : ∃ q ∈ p.postings, q.accountId = a.id
    · obtain ⟨q, hq, hid⟩ := hnamed
      rw [← hid]
      refine hchecked.protected_ q hq a ?_ ((AccountKind.neverNegative_iff _).2 hkind)
      rw [hid]
      exact lookup_of_mem h.accounts ha
    · have hzero : net p.postings a.id = 0 :=
        net_eq_zero fun q hq hid => hnamed ⟨q, hq, hid⟩
      rw [hzero, add_zero]
      exact h.funded a ha hkind
  · show (s.balances.map fun b => b.add (net p.postings b.accountId)).map Balance.accountId = _
    rw [List.map_map]
    exact h.rows
  · show e.transactionId ∈ (s.transactions ++ [p.transaction]).map Transaction.id
    rw [List.map_append]
    rcases List.mem_append.1 he with he | he
    · exact List.mem_append_left _ (h.journal e he)
    · rw [hmatch.entry he]
      exact List.mem_append_right _ List.mem_cons_self
  · rcases List.mem_append.1 he with he | he
    · exact h.named e he
    · obtain ⟨q, hq, hid, -⟩ := hmatch.posting he
      rw [hid]
      exact hchecked.account q hq

/-! ## Every sequence -/

variable {c : LedgerCall} {rows : List Write} {xs : List Inputs}

/-- Whatever a call commits keeps the books. -/
theorem Kept.commit (h : Kept s) (hc : LedgerCommit s c rows) : Kept (database.applyAll s rows) := by
  cases hc with
  | user u => exact h.of_eq rfl rfl rfl rfl
  | account hid hrow => exact h.insertAccount hid hrow
  | wallet hid hrow => exact h.insertAccount hid hrow
  | posting _ hmatch hchecked hbalanced =>
    rw [applyAll_posted]
    exact h.posted hmatch hchecked hbalanced

/-- A call keeps the books, wherever it is stopped. -/
theorem Kept.after (h : Kept s) (c : LedgerCall) (xs : List Inputs) : Kept (c.after xs s) := by
  refine (call_trail c xs s).induct h (fun hs hc => hs.commit hc) fun {s row} hs hdraw => ?_
  obtain rfl : row = .drawEntryId := hdraw
  exact hs.of_eq rfl rfl rfl rfl

/-- So does a run of the ledger. -/
theorem Kept.run {s₀ : Db} (h₀ : Kept s₀) (h : LedgerRun s₀ s) : Kept s := by
  induction h with
  | start => exact h₀
  | call c xs _ ih => exact ih.after c xs

/-- A run of the ledger loses nothing. -/
theorem Grows.run {s₀ : Db} (h : LedgerRun s₀ s) : Grows s₀ s := by
  induction h with
  | start => exact .refl s₀
  | @call s c xs _ ih =>
    refine ih.trans ((call_trail c xs s).induct (P := Grows s) (.refl s) ?_ ?_)
    · exact fun {s' rows} hs _ => hs.trans (.applyAll s' rows)
    · exact fun {s' row} hs _ => hs.trans (.apply s' row)

/-- The books balance after the migrations. -/
theorem migrated_kept : Kept migrated where
  cached := migrated_balanceOf
  balances := rfl
  entries := rfl
  transactions _ h := absurd h List.not_mem_nil
  funded a _ _ := (migrated_balanceOf a.id).ge
  accounts := by decide
  rows := rfl
  journal _ h := absurd h List.not_mem_nil
  named _ h := absurd h List.not_mem_nil

/-- A call that does not succeed has drawn numbers at most. -/
theorem after_unsuccessful (h : ¬c.Succeeds xs s) :
    (c.after xs s).transactions = s.transactions ∧ (c.after xs s).entries = s.entries ∧
      (c.after xs s).balances = s.balances := by
  have hdraws : ∀ (draws : List Write) (s : Db), (∀ w ∈ draws, w.isDraw = true) →
      (database.applyAll s draws).transactions = s.transactions ∧
        (database.applyAll s draws).entries = s.entries ∧
        (database.applyAll s draws).balances = s.balances := by
    intro draws
    induction draws with
    | nil => exact fun _ _ => ⟨rfl, rfl, rfl⟩
    | cons w draws ih =>
      intro s hall
      obtain ⟨hw, hrest⟩ := List.forall_mem_cons.1 hall
      have hstep := ih (s.apply w) hrest
      cases w <;> first
        | exact absurd hw Bool.false_ne_true
        | exact hstep
  have hblock : ∀ {body : Action c.Result} {tables : List Table}, c.program = transaction body →
      Touches tables body → (c.after xs s).transactions = s.transactions ∧
        (c.after xs s).entries = s.entries ∧ (c.after xs s).balances = s.balances := by
    intro body tables hprogram htouches
    unfold LedgerCall.after
    unfold LedgerCall.Succeeds at h
    rw [hprogram] at h ⊢
    rcases alone_transaction (D := database) htouches xs {} s with
      ⟨draws, hall, hdb⟩ | ⟨result, hok⟩
    · rw [hdb]
      exact hdraws draws s hall
    · exact absurd ⟨result, hok⟩ h
  cases c with
  | user u => exact hblock rfl insertUser_touches
  | account a => exact hblock rfl insertAccount_touches
  | wallet userId => exact hblock rfl createWallet_touches
  | posting input =>
    cases hbal : assertBalanced input with
    | ok u =>
      refine @hblock (postInTransaction input) _ ?_ postInTransaction_touches
      show (do check (assertBalanced input); transaction (postInTransaction input)) = _
      rw [hbal]
      rfl
    | error e =>
      have hdone : LedgerCall.program (.posting input) = .done (.error e) := by
        show (do check (assertBalanced input); transaction (postInTransaction input)) = _
        rw [hbal]
        rfl
      unfold LedgerCall.after
      rw [hdone]
      cases xs <;> exact ⟨rfl, rfl, rfl⟩

/-- A call that succeeds moves what it was asked to. -/
theorem LedgerCall.Succeeds.balanceOf (hc : c.Succeeds xs s) (id : Uuid) :
    (c.after xs s).balanceOf id = s.balanceOf id + net c.postings id := by
  obtain ⟨rows, hcommit, halike⟩ := hc.commits
  rw [halike.balanceOf]
  cases hcommit with
  | user u => exact (add_zero _).symm
  | account hid hrow => exact (Db.balanceOf_insertAccount hrow id).trans (add_zero _).symm
  | wallet hid hrow => exact (Db.balanceOf_insertAccount hrow id).trans (add_zero _).symm
  | posting hpostings hmatch hchecked hbalanced =>
    rw [applyAll_posted, Db.balanceOf_posted hchecked.balance, hpostings]
    rfl

/-- After every sequence of calls the books balance, and history is only added to; a call that
does not succeed changes nothing, and one that does moves what it was asked to. -/
theorem ledger_integrity (s : Db) (h : LedgerRun migrated s) :
    Booked s ∧
      (∀ s', LedgerRun s s' → s.transactions <+: s'.transactions ∧ s.entries <+: s'.entries) ∧
      ∀ (c : LedgerCall) (xs : List Inputs),
        (¬c.Succeeds xs s → (c.after xs s).transactions = s.transactions ∧
          (c.after xs s).entries = s.entries ∧ (c.after xs s).balances = s.balances) ∧
        (c.Succeeds xs s → ∀ id,
          (c.after xs s).balanceOf id = s.balanceOf id + net c.postings id) := by
  have hkept := migrated_kept.run h
  refine ⟨hkept.toBooked, fun s' hrun => ⟨(Grows.run hrun).transactions, (Grows.run hrun).entries⟩,
    fun c xs => ⟨after_unsuccessful, fun hc id => hc.balanceOf id⟩⟩

end

/-- Ten readings. -/
def tenReadings (k : ℕ) : List Inputs := (List.range 10).map fun n => readingAt (k + n) 0

/-- A user with a wallet of 1000, of which the house takes 400. -/
def smallLedger : Db :=
  LedgerCall.after (.posting ⟨.BET_PLACED, [⟨houseId, ⟨400, by decide⟩⟩,
        ⟨uuidAt 10, ⟨-400, by decide⟩⟩], none⟩) (tenReadings 30 ++ tenReadings 40) <|
    LedgerCall.after (.posting ⟨.SIGNUP_GRANT, [⟨mintId, ⟨-1000, by decide⟩⟩,
        ⟨uuidAt 10, ⟨1000, by decide⟩⟩], none⟩) (tenReadings 20 ++ tenReadings 50) <|
    LedgerCall.after (.wallet (uuidAt 1)) (tenReadings 10) <|
    LedgerCall.after (.user ⟨uuidAt 1, ⟨"ann", "ann"⟩, "Ann", "secret", "user", "active"⟩) (tenReadings 0)
      migrated

theorem ledger_integrity_smallLedger :
    smallLedger.balances.map Balance.balance = [-1000, 0, 400, 600] ∧ Booked smallLedger :=
  ⟨by decide +kernel,
    (ledger_integrity smallLedger (.call _ _ (.call _ _ (.call _ _ (.call _ _ .start))))).1⟩

end Tessera
