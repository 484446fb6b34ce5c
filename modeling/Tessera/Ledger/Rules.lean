import Tessera.Database.Regime
import Tessera.Ledger.Journal

/-!
# Reasoning about a posting

What `LedgerService.postInTransaction` does, under any discipline that respects the row locks:
it records one journal row and moves the balances, or it fails for one of the listed reasons.

* `PostFails` — the reasons; `PostChecked` — what a posting that succeeds has checked;
* `wp_postInTransaction`, `wp_postEnlisted` — the rules;
* `wp_lockAndAssertSufficient`, `wp_getWalletAccountId`, `wp_getBalance`.
-/

namespace Tessera

open Relational Transactions Transactions.Program

/-- Why a posting fails, in the state as the session saw it before. -/
inductive PostFails (postings : List Posting) (transactionId : Uuid) (v : Db) : AppError → Prop
  | primaryKey : (v.transactions.any fun t => t.id == transactionId) = true →
      PostFails postings transactionId v (.uniqueViolation "transactions_pkey")
  | amount {p : Posting} : p ∈ postings → p.amount.minor = 0 →
      PostFails postings transactionId v (.checkViolation "entries_amount_check")
  | account {p : Posting} : p ∈ postings → v.account p.accountId = none →
      PostFails postings transactionId v (.foreignKeyViolation "entries_account_id_fkey")
  | balance {p : Posting} : p ∈ postings → v.balance p.accountId = none →
      PostFails postings transactionId v (.accountNotFound (.inl p.accountId))
  | range {before after : List Posting} {p : Posting} :
      ordered postings = before ++ p :: after →
      inBigint (v.balanceOf p.accountId + net before p.accountId + p.amount.minor) = false →
      PostFails postings transactionId v .bigintOutOfRange
  | negative {before after : List Posting} {p : Posting} {a : Account} :
      ordered postings = before ++ p :: after → v.account p.accountId = some a →
      a.kind.neverNegative = true →
      v.balanceOf p.accountId + net before p.accountId + p.amount.minor < 0 →
      PostFails postings transactionId v (.negativeBalance p.accountId a.kind
        (v.balanceOf p.accountId + net before p.accountId + p.amount.minor))

/-- What a posting that succeeds has checked. -/
structure PostChecked (p : Posted) (v : Db) : Prop where
  fresh : (v.transactions.any fun t => t.id == p.transaction.id) = false
  amount : ∀ q ∈ p.postings, q.amount.minor ≠ 0
  account : ∀ q ∈ p.postings, (v.account q.accountId).isSome = true
  balance : ∀ q ∈ p.postings, (v.balance q.accountId).isSome = true
  protected_ : ∀ q ∈ p.postings, ∀ a, v.account q.accountId = some a →
    a.kind.neverNegative = true → 0 ≤ v.balanceOf q.accountId + net p.postings q.accountId
  range : ∀ before q after, ordered p.postings = before ++ q :: after →
    inBigint (v.balanceOf q.accountId + net before q.accountId + q.amount.minor) = true

/-- The locks taken so far by a posting. -/
def postLocks (transactionId : Uuid) (done : List Posting) : List (LockKey × LockMode) :=
  (done.map fun q => (LockKey.balance q.accountId, LockMode.exclusive)).reverse ++
    [(.transaction transactionId, .exclusive)]

/-- One more balance is locked on top of the others. -/
theorem postLocks_append (t : Uuid) (done : List Posting) (p : Posting) :
    postLocks t (done ++ [p]) = (.balance p.accountId, .exclusive) :: postLocks t done := by
  simp [postLocks]

/-- The trigger rejects a negative balance of a protected account. -/
theorem assertBalanceNonNegative_error {id : Uuid} {account : Option Account} {n : ℤ}
    {e : AppError} (h : assertBalanceNonNegative id (account.map Account.kind) n = .error e) :
    ∃ a, account = some a ∧ a.kind.neverNegative = true ∧ n < 0 ∧
      e = .negativeBalance id a.kind n := by
  cases account with
  | none => cases h
  | some a =>
    simp only [assertBalanceNonNegative, Option.map_some] at h
    split at h
    · rename_i hcond
      rw [Bool.and_eq_true, decide_eq_true_eq] at hcond
      cases h
      exact ⟨a, rfl, hcond.1, hcond.2, rfl⟩
    · cases h

/-- The trigger accepts everything else. -/
theorem assertBalanceNonNegative_ok {id : Uuid} {account : Option Account} {n : ℤ} {u : Unit}
    (h : assertBalanceNonNegative id (account.map Account.kind) n = .ok u) {a : Account}
    (ha : account = some a) (hkind : a.kind.neverNegative = true) : 0 ≤ n := by
  subst ha
  by_contra hneg
  simp [assertBalanceNonNegative, hkind, not_le.1 hneg] at h

section
variable {R : Discipline Db LockKey Write} {T : Terms Db LockKey Write}
variable {f f₀ : Standing Db LockKey Write} {s s₀ : Db} {M : Uuid → Db → Prop}
variable {locks : List (LockKey × LockMode)} {rows : List Write}

/-- The id of an entry is drawn at once, and changes nothing else. -/
theorem wp_drawEntryId (hR : Regime R) (hT : Fair T)
    (P : Progress R f₀ s₀ locks rows (underLock M) f s) {Q : Post Db LockKey Write AppError ℕ}
    (h : ∀ n s', Later R f s f s' → Progress R f₀ s₀ locks rows (underLock M) f s' →
      Q (.ok n) f s') :
    wp database R T (draw .drawEntryId Db.entrySeq : Action ℕ) f s Q := by
  refine wp_draw (fun s' _ => hT.entryId s') fun s' hs' => ?_
  have hrely := hs'.trans hR.regular (hR.draw hs'.inv)
  exact h _ _ ⟨hrely, List.Subset.refl _⟩ (P.wait hR.regular hrely)

/-- The journal row and the entries, before the balances are touched. -/
def journalRows (t : Transaction) (entries : List Entry) : List Write :=
  .insertTransaction t :: entries.map .insertEntry

/-- The journal row and the entries are appended. -/
theorem applyAll_journalRows (v : Db) (t : Transaction) (entries : List Entry) :
    database.applyAll v (journalRows t entries) =
      { v with transactions := v.transactions ++ [t], entries := v.entries ++ entries } := by
  unfold journalRows
  rw [Database.applyAll_cons, applyAll_insertEntry]
  rfl

/-- A journal row is inserted if its id is new. -/
theorem wp_insertTransaction (hR : Regime R) (hT : Fair T) (hinv : R.inv s) {t : Transaction}
    {Q : Post Db LockKey Write AppError Unit}
    (hok : ∀ f' s', Progress R f s (postLocks t.id []) [.insertTransaction t] (underLock M) f' s' →
      ((f.view database s').transactions.any fun u => u.id == t.id) = false → Q (.ok ()) f' s')
    (herror : ∀ f' s', Aborted R f s (underLock M) f' s' →
      ((f.view database s').transactions.any fun u => u.id == t.id) = true →
      T.admits f (.lock (.transaction t.id) .exclusive) s' →
      Q (.error (.uniqueViolation "transactions_pkey")) f' s') :
    wp database R T (insertTransaction t) f s Q := by
  have P₀ : Progress R f s [] [] (underLock M) f s := .refl hR.regular hinv _
  unfold insertTransaction
  refine wp_bind.2 (wp_claim hR P₀ (by simp) (fun s₁ _ => hT.guard _ _ s₁ rfl)
    (fun f₁ s₁ h₁ P₁ hfree => ?_) fun f₁ s₁ h₁ P₁ htaken ha => ?_)
  · refine onValue_ok (wp_putOther hR P₁ ?_ (by simp) (by simp) fun f₂ s₂ h₂ P₂ => ?_)
    · exact List.cons_subset.2 ⟨P₁.got List.mem_cons_self, List.nil_subset _⟩
    · refine hok f₂ s₂ P₂ ?_
      have hsame := hR.same_later h₂ (P₁.got List.mem_cons_self) f
      exact hsame.1.trans hfree
  · exact herror _ _ P₁.aborted htaken ha

/-- A balance that changes, checked. -/
theorem Tidy.addBalance {v : Db} (h : Tidy v) {id : Uuid} {amount : ℤ}
    (hok : ∀ a, v.account id = some a → a.kind.neverNegative = true →
      0 ≤ v.balanceOf id + amount) : Tidy (v.apply (.addBalance id amount)) := by
  intro id' a ha hkind
  have ha' : v.account id' = some a := ha
  have hrow : (v.apply (.addBalance id amount)).balance id' =
      if id' = id then (v.balance id').map (Balance.add amount) else v.balance id' :=
    lookup_modify (Balance.add_accountId amount) id'
  have hold := h id' a ha' hkind
  unfold Db.balanceOf at hold hok ⊢
  rw [hrow]
  split
  · subst id'
    have hnew := hok a ha' hkind
    cases hb : v.balance id with
    | none => simp
    | some b =>
      rw [hb] at hnew
      exact hnew
  · exact hold

/-- One row of the entries. -/
theorem wp_insertEntryRow (hR : Regime R) (hT : Fair T) {t a : Uuid} {amount : Money}
    {createdAt : Time} (P : Progress R f₀ s₀ locks rows (underLock M) f s)
    (hlock : (.transaction t, .exclusive) ∈ locks) {Q : Post Db LockKey Write AppError Unit}
    (hok : ∀ e f' s', e.transactionId = t → e.accountId = a → e.amount = amount.minor →
      amount.minor ≠ 0 → Later R f s f' s' →
      Progress R f₀ s₀ locks (rows ++ [.insertEntry e]) (underLock M) f' s' → Q (.ok ()) f' s')
    (herror : ∀ f' s', Progress R f₀ s₀ locks rows (underLock M) f' s' → amount.minor = 0 →
      Q (.error (.checkViolation "entries_amount_check")) f' s') :
    wp database R T (insertEntryRow t a amount createdAt) f s Q := by
  unfold insertEntryRow
  refine wp_bind.2 (wp_drawEntryId hR hT P fun n s₁ h₁ P₁ => ?_)
  refine onValue_ok (wp_bind.2 (wp_ensure (fun hne => ?_) fun heq => ?_))
  · refine onValue_ok (wp_putOther hR P₁ ?_ (by simp) (by simp) fun f₂ s₂ h₂ P₂ => ?_)
    · exact List.cons_subset.2 ⟨P₁.got hlock, List.nil_subset _⟩
    · exact hok _ f₂ s₂ rfl rfl rfl (by simpa using hne) (h₁.trans hR.regular h₂) P₂
  · exact herror _ _ P₁ (by simpa using heq)

/-- The entries of all postings, then their foreign keys. -/
theorem wp_insertEntries (hR : Regime R) (hT : Fair T) {t : Transaction}
    {postings : List Posting}
    (P : Progress R f₀ s₀ (postLocks t.id []) [.insertTransaction t] (underLock M) f s)
    {Q : Post Db LockKey Write AppError Unit}
    (hok : ∀ entries f' s', (⟨t, postings, entries⟩ : Posted).Matches →
      (∀ q ∈ postings, q.amount.minor ≠ 0) →
      (∀ q ∈ postings, ((f₀.view database s').account q.accountId).isSome = true) →
      Later R f s f' s' →
      Progress R f₀ s₀ (postLocks t.id []) (journalRows t entries) (underLock M) f' s' →
      Q (.ok ()) f' s')
    (herror : ∀ e f' s', Aborted R f₀ s₀ (underLock M) f' s' →
      PostFails postings t.id (f₀.view database s') e → e ≠ .uniqueViolation "transactions_pkey" →
      Q (.error e) f' s') :
    wp database R T (insertEntries t.id postings) f s Q := by
  unfold insertEntries
  refine wp_bind.2 (wp_read fun x => onValue_ok (wp_bind.2 ?_))
  -- the rows so far are those of the postings so far
  let I : List Posting → Standing Db LockKey Write → Db → Prop := fun done f' s' =>
    ∃ entries, (⟨t, done, entries⟩ : Posted).Matches ∧ (∀ q ∈ done, q.amount.minor ≠ 0) ∧
      Later R f s f' s' ∧
      Progress R f₀ s₀ (postLocks t.id []) (journalRows t entries) (underLock M) f' s'
  refine wp_forEach I [] ⟨[], rfl, by simp, .refl hR.regular P.rely.inv, P⟩ ?_ ?_
  · rintro done p after hsplit f₁ s₁ ⟨entries, hmatch, hne, hlater, P₁⟩
    refine wp_insertEntryRow hR hT P₁ (by simp [postLocks]) ?_ ?_
    · intro e f₂ s₂ he ha hamount hne' h₂ P₂
      refine ⟨entries ++ [e], ?_, ?_, hlater.trans hR.regular h₂, ?_⟩
      · simp only [Posted.Matches, List.map_append, List.map_cons, List.map_nil] at hmatch ⊢
        rw [hmatch, he, ha, hamount]
      · intro q hq
        rcases List.mem_append.1 hq with hq | hq
        · exact hne q hq
        · rw [List.mem_singleton.1 hq]
          exact hne'
      · simpa [journalRows] using P₂
    · intro f₂ s₂ P₂ hzero
      have hp : p ∈ postings := by
        rw [List.nil_append] at hsplit
        simp [hsplit]
      exact herror _ _ _ P₂.aborted (.amount hp hzero) (by simp)
  · rintro f₁ s₁ ⟨entries, hmatch, hne, hlater, P₁⟩
    rw [List.nil_append] at hmatch hne
    let J : List Posting → Standing Db LockKey Write → Db → Prop := fun done f' s' =>
      (∀ q ∈ done, ((f₀.view database s').account q.accountId).isSome = true) ∧
        Later R f s f' s' ∧
        Progress R f₀ s₀ (postLocks t.id []) (journalRows t entries) (underLock M) f' s'
    refine wp_forEach J [] ⟨by simp, hlater, P₁⟩ ?_ ?_
    · rintro done p after hsplit f₂ s₂ ⟨haccounts, hlater₂, P₂⟩
      have hview : ∀ s', (database.applyAll (f₀.view database s') (journalRows t entries)).account
          p.accountId = (f₀.view database s').account p.accountId := fun s' => by
        rw [applyAll_journalRows]
        rfl
      refine wp_assertReference hR P₂ (fun f₃ s₃ h₃ P₃ hthere => ?_)
        fun f₃ s₃ h₃ P₃ hmissing => ?_
      · rw [hview] at hthere
        refine ⟨fun q hq => ?_, hlater₂.trans hR.regular h₃, P₃⟩
        rcases List.mem_append.1 hq with hq | hq
        · exact (hR.grows h₃.rely.grows).account_isSome f₀ (haccounts q hq)
        · rw [List.mem_singleton.1 hq]
          exact hthere
      · rw [hview] at hmissing
        have hp : p ∈ postings := by
          rw [List.nil_append] at hsplit
          simp [hsplit]
        exact herror _ _ _ P₃.aborted (.account hp (isSome_false hmissing)) (by simp)
    · rintro f₂ s₂ ⟨haccounts, hlater₂, P₂⟩
      exact hok entries f₂ s₂ hmatch hne haccounts hlater₂ P₂

/-- The journal and the balances, part of the postings done. -/
def postRows (t : Transaction) (entries : List Entry) (done : List Posting) : List Write :=
  journalRows t entries ++ done.map fun q => .addBalance q.accountId q.amount.minor

/-- The writes of a posting so far: the journal, and the balances moved. -/
theorem applyAll_postRows (v : Db) (t : Transaction) (entries : List Entry)
    (done : List Posting) :
    database.applyAll v (postRows t entries done) =
      (database.applyAll v (journalRows t entries)).credit done := by
  unfold postRows
  rw [Database.applyAll_append, applyAll_addBalance]

/-- They change no account. -/
theorem postRows_account (v : Db) (t : Transaction) (entries : List Entry)
    (done : List Posting) (id : Uuid) :
    (database.applyAll v (postRows t entries done)).account id = v.account id := by
  rw [applyAll_postRows, applyAll_journalRows]
  rfl

/-- They move each balance by the net amount of the postings done. -/
theorem postRows_balance (v : Db) (t : Transaction) (entries : List Entry)
    (done : List Posting) (id : Uuid) :
    (database.applyAll v (postRows t entries done)).balance id =
      (v.balance id).map (Balance.add (net done id)) := by
  rw [applyAll_postRows, applyAll_journalRows, Db.balance_credit]
  rfl

/-- So a balance that is there is read as moved. -/
theorem postRows_balanceOf {v : Db} {id : Uuid} (h : (v.balance id).isSome = true)
    (t : Transaction) (entries : List Entry) (done : List Posting) :
    (database.applyAll v (postRows t entries done)).balanceOf id =
      v.balanceOf id + net done id := by
  obtain ⟨b, hb⟩ := Option.isSome_iff_exists.1 h
  unfold Db.balanceOf
  rw [postRows_balance, hb]
  rfl

/-- The write of a balance that has been checked under its lock. -/
theorem wp_addBalance (hR : Regime R) {t : Transaction} {entries : List Entry}
    {done : List Posting} {p : Posting}
    (P : Progress R f₀ s₀ (postLocks t.id (done ++ [p])) (postRows t entries done) (underLock M) f s)
    (hrow : ((f₀.view database s).balance p.accountId).isSome = true)
    (hprot : ∀ a, (f₀.view database s).account p.accountId = some a → a.kind.neverNegative = true →
      0 ≤ (f₀.view database s).balanceOf p.accountId + net done p.accountId + p.amount.minor)
    {Q : Post Db LockKey Write AppError Unit}
    (hok : ∀ f' s', Later R f s f' s' →
      Progress R f₀ s₀ (postLocks t.id (done ++ [p])) (postRows t entries (done ++ [p]))
        (underLock M) f' s' → Q (.ok ()) f' s') :
    wp database R T (put (.addBalance p.accountId p.amount.minor) : Action Unit) f s Q := by
  have hlock : (LockKey.balance p.accountId, LockMode.exclusive) ∈ f.held :=
    P.got (by simp [postLocks_append])
  refine wp_putAt hR P ?_ (fun s' h htidy => ?_) fun f' s' h P' => ?_
  · exact List.cons_subset.2 ⟨hlock, List.nil_subset _⟩
  · refine htidy.addBalance fun a ha hkind => ?_
    obtain ⟨hb', ha'⟩ := hR.same_later ⟨h, List.Subset.refl _⟩ hlock f₀
    rw [postRows_account] at ha
    rw [postRows_balanceOf ((hR.grows h.grows).balance_isSome f₀ hrow)]
    unfold Db.balanceOf at hprot ⊢
    rw [hb']
    exact hprot a (ha'.symm.trans ha) hkind
  · exact hok f' s' h (by simpa [postRows] using P')

/-- The checks on one balance that is about to change. -/
theorem wp_updateBalance (hR : Regime R) {t : Transaction} {entries : List Entry}
    {done : List Posting} {p : Posting}
    (P : Progress R f₀ s₀ (postLocks t.id done) (postRows t entries done) (underLock M) f s)
    {Q : Post Db LockKey Write AppError Unit}
    (hguard : ∀ f₁ s₁, Later R f s f s₁ → f₁.held = f.held →
      T.guard f₁ (.balance p.accountId, .exclusive) s₁)
    (hM : ∀ s₁, Later R f s f s₁ → ((f₀.view database s₁).balance p.accountId).isSome = true →
      M p.accountId (database.applyAll (f₀.view database s₁) (postRows t entries done)))
    (hok : ∀ f' s', Later R f s f' s' →
      ((f₀.view database s').balance p.accountId).isSome = true →
      (∀ a, (f₀.view database s').account p.accountId = some a →
        a.kind.neverNegative = true →
        0 ≤ (f₀.view database s').balanceOf p.accountId + net (done ++ [p]) p.accountId) →
      inBigint ((f₀.view database s').balanceOf p.accountId + net done p.accountId +
        p.amount.minor) = true →
      Progress R f₀ s₀ (postLocks t.id (done ++ [p])) (postRows t entries (done ++ [p]))
        (underLock M) f' s' → Q (.ok ()) f' s')
    (hnone : ∀ f' s', Aborted R f₀ s₀ (underLock M) f' s' →
      (f₀.view database s').balance p.accountId = none →
      Q (.error (.accountNotFound (.inl p.accountId))) f' s')
    (hrange : ∀ f' s', Aborted R f₀ s₀ (underLock M) f' s' →
      inBigint ((f₀.view database s').balanceOf p.accountId + net done p.accountId +
        p.amount.minor) = false → Q (.error .bigintOutOfRange) f' s')
    (hnegative : ∀ a f' s', Aborted R f₀ s₀ (underLock M) f' s' →
      (f₀.view database s').account p.accountId = some a → a.kind.neverNegative = true →
      (f₀.view database s').balanceOf p.accountId + net done p.accountId + p.amount.minor < 0 →
      Q (.error (.negativeBalance p.accountId a.kind
        ((f₀.view database s').balanceOf p.accountId + net done p.accountId + p.amount.minor)))
        f' s') :
    wp database R T (updateBalance p) f s Q := by
  unfold updateBalance
  refine wp_bind.2 (wp_selectForLockAt hR P ?_ ?_ ?_ ?_)
  · intro f₁ s₁ h₁ P₁ hview
    rw [Option.map_eq_none_iff, postRows_balance, Option.map_eq_none_iff] at hview
    exact hnone f₁ s₁ P₁.aborted hview
  · intro f₁ s₁ row s₂ h₁ hheld hview h₂
    obtain ⟨b, hb, rfl⟩ := Option.map_eq_some_iff.1 hview
    rw [show b.accountId = p.accountId from lookup_key hb]
    exact hguard f₁ s₂ ⟨h₁.trans hR.regular h₂, List.Subset.refl _⟩ hheld
  · intro s₁ row s₂ h₁ hview h₂ id hid
    obtain ⟨b, hb, rfl⟩ := Option.map_eq_some_iff.1 hview
    have hbid : b.accountId = p.accountId := lookup_key hb
    obtain rfl : p.accountId = id := by simpa [hbid] using hid
    rw [postRows_balance, Option.map_eq_some_iff] at hb
    obtain ⟨b₀, hb₀, -⟩ := hb
    refine hM s₂ ⟨h₁.trans hR.regular h₂, List.Subset.refl _⟩ ?_
    exact (hR.grows h₂.grows).balance_isSome f₀ (Option.isSome_iff_exists.2 ⟨b₀, hb₀⟩)
  intro f₁ s₁ row f₂ s₂ h₁ hview₁ h₂ _ P₂
  obtain ⟨b₁, hb₁, rfl⟩ := Option.map_eq_some_iff.1 hview₁
  rw [show b₁.accountId = p.accountId from lookup_key hb₁] at P₂
  rw [postRows_balance, Option.map_eq_some_iff] at hb₁
  obtain ⟨b₀, hb₀, -⟩ := hb₁
  have hrow : ((f₀.view database s₂).balance p.accountId).isSome = true :=
    (hR.grows h₂.rely.grows).balance_isSome f₀ (Option.isSome_iff_exists.2 ⟨b₀, hb₀⟩)
  obtain ⟨b, hb⟩ := Option.isSome_iff_exists.1 hrow
  have hof : (f₀.view database s₂).balanceOf p.accountId = b.balance := by
    simp [Db.balanceOf, hb]
  rw [postRows_account, postRows_balance, hb]
  simp only [Option.map_some]
  have hbalance : (b.add (net done p.accountId)).balance + p.amount.minor =
      (f₀.view database s₂).balanceOf p.accountId + net done p.accountId + p.amount.minor := by
    rw [hof]
    rfl
  refine onValue_ok ?_
  simp only [hbalance]
  refine wp_bind.2 (wp_ensure (fun hin => onValue_ok ?_) fun hout => ?_)
  case refine_2 => exact hrange f₂ s₂ P₂.aborted hout
  refine wp_bind.2 (wp_check ?_)
  cases hkind : assertBalanceNonNegative p.accountId
    ((f₀.view database s₂).account p.accountId |>.map Account.kind)
    ((f₀.view database s₂).balanceOf p.accountId + net done p.accountId + p.amount.minor) with
  | error e =>
    obtain ⟨a, ha, hprot, hneg, rfl⟩ := assertBalanceNonNegative_error hkind
    exact hnegative a f₂ s₂ P₂.aborted ha hprot hneg
  | ok u =>
    refine onValue_ok (wp_addBalance hR (postLocks_append t.id done p ▸ P₂) hrow
      (fun a ha => assertBalanceNonNegative_ok hkind ha) fun f₃ s₃ h₃ P₃ => ?_)
    obtain ⟨hb₃, ha₃⟩ := hR.same_later h₃ (P₂.got List.mem_cons_self) f₀
    refine hok f₃ s₃ ((h₁.trans hR.regular h₂).trans hR.regular h₃)
      ((hR.grows h₃.rely.grows).balance_isSome f₀ hrow) ?_ ?_ P₃
    · intro a ha hkind'
      rw [net_append, net_cons, if_pos rfl, net_nil, add_zero, ← add_assoc]
      unfold Db.balanceOf at hkind ⊢
      rw [hb₃]
      exact assertBalanceNonNegative_ok hkind (ha₃.symm.trans ha) hkind'
    · unfold Db.balanceOf at hin ⊢
      rw [hb₃]
      exact hin

/-- The balances moved so far by a posting, and what has been checked of them. -/
structure Moved (R : Discipline Db LockKey Write) (M : Uuid → Db → Prop) (t : Transaction)
    (entries : List Entry) (postings : List Posting) (f₀ : Standing Db LockKey Write) (s₀ : Db)
    (done : List Posting) (f : Standing Db LockKey Write) (s : Db) : Prop where
  balance : ∀ q ∈ done, ((f₀.view database s).balance q.accountId).isSome = true
  protected_ : ∀ q ∈ done, ∀ a, (f₀.view database s).account q.accountId = some a →
    a.kind.neverNegative = true →
    0 ≤ (f₀.view database s).balanceOf q.accountId + net done q.accountId
  range : ∀ before q after, ordered postings = before ++ q :: after →
    before.length < done.length → inBigint ((f₀.view database s).balanceOf q.accountId +
      net before q.accountId + q.amount.minor) = true
  progress : Progress R f₀ s₀ (postLocks t.id done) (postRows t entries done) (underLock M) f s

section
variable {t : Transaction} {entries : List Entry} {postings done after : List Posting}
variable {p : Posting} {f' : Standing Db LockKey Write} {s' : Db}

/-- The balances moved so far are locked. -/
theorem Moved.got (h : Moved R M t entries postings f₀ s₀ done f s) {q : Posting}
    (hq : q ∈ done) : (.balance q.accountId, .exclusive) ∈ f.held :=
  h.progress.got (List.mem_append_left _ (List.mem_reverse.2 (List.mem_map.2 ⟨q, hq, rfl⟩)))

/-- No other row has been locked. -/
theorem Moved.only (h : Moved R M t entries postings f₀ s₀ done f s)
    {l : LockKey × LockMode} (hl : l ∈ f.held) (hrow : l.1.isRow = true) :
    l ∈ f₀.held ∨ ∃ q ∈ done, l = (.balance q.accountId, .exclusive) := by
  rcases List.mem_append.1 (h.progress.only hl) with hl | hl
  · rcases List.mem_append.1 hl with hl | hl
    · obtain ⟨q, hq, rfl⟩ := List.mem_map.1 (List.mem_reverse.1 hl)
      exact .inr ⟨q, hq, rfl⟩
    · rw [List.mem_singleton.1 hl] at hrow
      cases hrow
  · exact .inl hl

/-- One more balance; the locks keep those that have been checked. -/
theorem Moved.snoc (hR : Regime R) (h : Moved R M t entries postings f₀ s₀ done f s)
    (hsplit : ordered postings = done ++ p :: after) (hl : Later R f s f' s')
    (hrow : ((f₀.view database s').balance p.accountId).isSome = true)
    (hprot : ∀ a, (f₀.view database s').account p.accountId = some a →
      a.kind.neverNegative = true →
      0 ≤ (f₀.view database s').balanceOf p.accountId + net (done ++ [p]) p.accountId)
    (hin : inBigint ((f₀.view database s').balanceOf p.accountId + net done p.accountId +
      p.amount.minor) = true)
    (P : Progress R f₀ s₀ (postLocks t.id (done ++ [p])) (postRows t entries (done ++ [p]))
      (underLock M) f' s') : Moved R M t entries postings f₀ s₀ (done ++ [p]) f' s' := by
  have hkept : ∀ q ∈ done,
      (f₀.view database s').balance q.accountId = (f₀.view database s).balance q.accountId ∧
        (f₀.view database s').account q.accountId = (f₀.view database s).account q.accountId :=
    fun q hq => hR.same_later hl (h.got hq) f₀
  refine ⟨fun q hq => ?_, fun q hq a ha hkind => ?_, fun before q rest hsplit' hlength => ?_, P⟩
  · rcases List.mem_append.1 hq with hq | hq
    · exact (hR.grows hl.rely.grows).balance_isSome f₀ (h.balance q hq)
    · rw [List.mem_singleton.1 hq]
      exact hrow
  · by_cases hqp : q.accountId = p.accountId
    · rw [hqp] at ha ⊢
      exact hprot a ha hkind
    · have hq' : q ∈ done := by
        rcases List.mem_append.1 hq with hq | hq
        · exact hq
        · exact absurd (by rw [List.mem_singleton.1 hq]) hqp
      obtain ⟨hb, hacc⟩ := hkept q hq'
      have hnet : net (done ++ [p]) q.accountId = net done q.accountId := by
        rw [net_append, net_cons, if_neg (Ne.symm hqp), net_nil, add_zero, add_zero]
      have hold := h.protected_ q hq' a (hacc.symm.trans ha) hkind
      unfold Db.balanceOf at hold ⊢
      rwa [hnet, hb]
  · rw [List.length_append, List.length_singleton] at hlength
    rcases Nat.lt_succ_iff_lt_or_eq.1 hlength with hlt | heq
    · have hq : q ∈ done := by
        have hleft : before ++ [q] <+: before ++ q :: rest := ⟨rest, by simp⟩
        have hright : done <+: before ++ q :: rest := by
          rw [← hsplit', hsplit]
          exact List.prefix_append _ _
        have honward : before ++ [q] <+: done :=
          List.prefix_of_prefix_length_le hleft hright (by simpa using hlt)
        exact honward.subset (by simp)
      have hold := h.range before q rest hsplit' hlt
      unfold Db.balanceOf at hold ⊢
      rwa [(hkept q hq).1]
    · rw [hsplit] at hsplit'
      obtain ⟨rfl, htail⟩ := List.append_inj hsplit' heq.symm
      injection htail with hpq
      rw [← hpq]
      exact hin

/-- When all balances have been moved, everything has been checked. -/
theorem Moved.checked (h : Moved R M t entries postings f₀ s₀ (ordered postings) f s)
    (hfresh : ((f₀.view database s).transactions.any fun u => u.id == t.id) = false)
    (hamount : ∀ q ∈ postings, q.amount.minor ≠ 0)
    (haccount : ∀ q ∈ postings, ((f₀.view database s).account q.accountId).isSome = true) :
    PostChecked ⟨t, postings, entries⟩ (f₀.view database s) where
  fresh := hfresh
  amount := hamount
  account := haccount
  balance q hq := h.balance q (mem_ordered.2 hq)
  protected_ q hq a ha hkind := by
    rw [← net_perm (ordered_perm postings)]
    exact h.protected_ q (mem_ordered.2 hq) a ha hkind
  range before q after hsplit := by
    refine h.range before q after hsplit ?_
    rw [show ordered postings = before ++ q :: after from hsplit]
    simp

end

/-- What `postInTransaction` does: one journal row with its entries, the balances moved. -/
theorem wp_postInTransaction (hR : Regime R) (hT : Fair T) (hinv : R.inv s) {input : PostInput}
    {Q : Post Db LockKey Write AppError PostedTransaction}
    (hguard : ∀ before p after, ordered input.postings = before ++ p :: after →
      ∀ f₁ s₁, Later R f s f₁ s₁ →
      (∀ q ∈ before, (.balance q.accountId, .exclusive) ∈ f₁.held) →
      (∀ h ∈ f₁.held, h.1.isRow = true →
        h ∈ f.held ∨ ∃ q ∈ before, h = (.balance q.accountId, .exclusive)) →
      T.guard f₁ (.balance p.accountId, .exclusive) s₁)
    (hM : ∀ before p after, ordered input.postings = before ++ p :: after → ∀ s₁ v,
      Rely R f.held s s₁ → v.accounts = (f.view database s₁).accounts →
      v.balanceOf p.accountId = (f.view database s₁).balanceOf p.accountId + net before p.accountId →
      M p.accountId v)
    (hok : ∀ x : Inputs, ∀ p : Posted, ∀ f' s',
      p.transaction = ⟨x.uuid, input.kind, input.reference⟩ → p.postings = input.postings →
      p.Matches → PostChecked p (f.view database s') →
      Progress R f s (postLocks x.uuid (ordered input.postings)) p.rows (underLock M) f' s' →
      Q (.ok ⟨x.uuid, input.kind, input.postings⟩) f' s')
    (herror : ∀ x : Inputs, ∀ e f' s', Aborted R f s (underLock M) f' s' →
      PostFails input.postings x.uuid (f.view database s') e →
      (e = .uniqueViolation "transactions_pkey" →
        T.admits f (.lock (.transaction x.uuid) .exclusive) s') → Q (.error e) f' s') :
    wp database R T (postInTransaction input) f s Q := by
  unfold postInTransaction
  refine wp_bind.2 (wp_read fun x => onValue_ok (wp_bind.2 ?_))
  refine wp_insertTransaction hR hT hinv (M := M) (fun f₁ s₁ P₁ hfresh => ?_)
    fun f₁ s₁ hab htaken ha => herror x _ f₁ s₁ hab (.primaryKey htaken) fun _ => ha
  refine onValue_ok (wp_bind.2 (wp_insertEntries hR hT
    (t := ⟨x.uuid, input.kind, input.reference⟩) P₁ ?_ ?_))
  case refine_2 =>
    intro e f₂ s₂ hab hfails hne
    exact herror x e f₂ s₂ hab hfails fun he => absurd he hne
  intro entries f₂ s₂ hmatch hamount haccount h₂ P₂
  let t : Transaction := ⟨x.uuid, input.kind, input.reference⟩
  refine onValue_ok (wp_bind.2 (wp_forEach (fun done f' s' => Later R f₂ s₂ f' s' ∧
    Moved R M t entries input.postings f s done f' s') []
    ⟨.refl hR.regular P₂.rely.inv, by simp, by simp, by simp, by simpa [postRows] using P₂⟩ ?_ ?_))
  · rintro done p after hsplit f₃ s₃ ⟨hlater, hmoved⟩
    have P₃ := hmoved.progress
    have hsplit' : ordered input.postings = done ++ p :: after := by simpa using hsplit
    have hmem : p ∈ input.postings := mem_ordered.1 (by simp [hsplit'])
    refine wp_updateBalance hR (t := t) P₃ (fun f₄ s₄ h₄ hheld => ?_) (fun s₄ h₄ hsome => ?_)
      (fun f₄ s₄ h₄ hsome hprot hin P₄ =>
        ⟨hlater.trans hR.regular h₄, hmoved.snoc hR hsplit' h₄ hsome hprot hin P₄⟩)
      (fun f₄ s₄ hab hnone => herror x _ f₄ s₄ hab (.balance hmem hnone) (by simp))
      (fun f₄ s₄ hab hout => herror x _ f₄ s₄ hab (.range hsplit' hout) (by simp))
      fun a f₄ s₄ hab ha hkind hneg =>
        herror x _ f₄ s₄ hab (.negative hsplit' ha hkind hneg) (by simp)
    · have hall := P₃.toLater.trans hR.regular h₄
      refine hguard done p after hsplit' f₄ s₄ ⟨hall.rely, hheld ▸ hall.kept⟩
        (fun q hq => hheld ▸ hmoved.got hq) fun h hh hrow => ?_
      rw [hheld] at hh
      exact hmoved.only hh hrow
    · refine hM done p after hsplit' s₄ _ (P₃.toLater.trans hR.regular h₄).rely ?_
        (postRows_balanceOf hsome _ _ _)
      rw [applyAll_postRows, applyAll_journalRows]
      rfl
  · rintro f₃ s₃ ⟨hlater, hmoved⟩
    rw [List.nil_append] at hmoved
    have hlock : (LockKey.transaction x.uuid, LockMode.exclusive) ∈ f₁.held :=
      P₁.got (by simp [postLocks])
    have hsame := hR.same_later (h₂.trans hR.regular hlater) hlock f
    exact onValue_ok (hok x ⟨t, input.postings, entries⟩ f₃ s₃ rfl rfl hmatch
      (hmoved.checked (hsame.1.trans hfresh) hamount fun q hq =>
        (hR.grows hlater.rely.grows).account_isSome f (haccount q hq))
      (by simpa [postRows, journalRows, Posted.rows] using hmoved.progress))

/-- `post` inside an open transaction: the check on the sum comes first. -/
theorem wp_postEnlisted (hR : Regime R) (hT : Fair T) (hinv : R.inv s) {input : PostInput}
    {Q : Post Db LockKey Write AppError PostedTransaction}
    (hguard : ∀ before p after, ordered input.postings = before ++ p :: after →
      ∀ f₁ s₁, Later R f s f₁ s₁ →
      (∀ q ∈ before, (.balance q.accountId, .exclusive) ∈ f₁.held) →
      (∀ h ∈ f₁.held, h.1.isRow = true →
        h ∈ f.held ∨ ∃ q ∈ before, h = (.balance q.accountId, .exclusive)) →
      T.guard f₁ (.balance p.accountId, .exclusive) s₁)
    (hM : ∀ before p after, ordered input.postings = before ++ p :: after → ∀ s₁ v,
      Rely R f.held s s₁ → v.accounts = (f.view database s₁).accounts →
      v.balanceOf p.accountId = (f.view database s₁).balanceOf p.accountId + net before p.accountId →
      M p.accountId v)
    (hok : ∀ x : Inputs, ∀ p : Posted, ∀ f' s',
      p.transaction = ⟨x.uuid, input.kind, input.reference⟩ → p.postings = input.postings →
      p.Matches → PostChecked p (f.view database s') →
      Progress R f s (postLocks x.uuid (ordered input.postings)) p.rows (underLock M) f' s' →
      Q (.ok ⟨x.uuid, input.kind, input.postings⟩) f' s')
    (hunbalanced : ∀ e, assertBalanced input = .error e → Q (.error e) f s)
    (herror : ∀ x : Inputs, ∀ e f' s', Aborted R f s (underLock M) f' s' →
      PostFails input.postings x.uuid (f.view database s') e →
      (e = .uniqueViolation "transactions_pkey" →
        T.admits f (.lock (.transaction x.uuid) .exclusive) s') → Q (.error e) f' s') :
    wp database R T (postEnlisted input) f s Q := by
  unfold postEnlisted
  refine wp_bind.2 (wp_check ?_)
  cases hbal : assertBalanced input with
  | error e => exact hunbalanced e hbal
  | ok u => exact onValue_ok (wp_postInTransaction hR hT hinv hguard hM hok herror)

/-! ## Reading a balance -/

/-- The balance under the lock of its row, which is there. -/
theorem wp_lockBalanceForUpdate (hR : Regime R) {id : Uuid}
    {Q : Post Db LockKey Write AppError Money}
    (hrow : ∀ s', Rely R f.held s s' → ((f.view database s').balance id).isSome = true)
    (hguard : ∀ v₁ s', Rely R f.held s s' →
      T.guard (f.saw v₁) (.balance id, .exclusive) s')
    (hok : ∀ v₁ s' money, Rely R f.held s s' →
      T.admits (f.saw v₁) (.lock (.balance id) .exclusive) s' →
      money.minor = (f.view database s').balanceOf id →
      Q (.ok money) ((f.saw v₁).locked (.balance id) .exclusive (f.view database s')) s')
    (hbeyond : ∀ v₁ s', Rely R f.held s s' →
      Js.isSafeInteger ((f.view database s').balanceOf id) = false →
      Q (.error (.unsafeBigint ((f.view database s').balanceOf id)))
        ((f.saw v₁).locked (.balance id) .exclusive (f.view database s')) s') :
    wp database R T (lockBalanceForUpdate id) f s Q := by
  unfold lockBalanceForUpdate
  refine wp_bind.2 (wp_selectForLock (fun s₁ h₁ hview => ?_) (fun s₁ b h₁ hview s₂ h₂ => ?_)
    fun s₁ b h₁ hview s₂ h₂ ha => ?_)
  · have hsome := hrow s₁ h₁
    rw [hview] at hsome
    cases hsome
  · rw [show b.accountId = id from lookup_key hview]
    exact hguard _ s₂ (h₁.trans hR.regular h₂)
  · rw [show b.accountId = id from lookup_key hview] at ha ⊢
    have h₁₂ := h₁.trans hR.regular h₂
    obtain ⟨b₂, hb₂⟩ := Option.isSome_iff_exists.1 (hrow s₂ h₁₂)
    have hof : (f.view database s₂).balanceOf id = b₂.balance := by
      simp [Db.balanceOf, hb₂]
    rw [hb₂]
    refine onValue_ok (wp_check ?_)
    unfold readBigint
    split
    · exact hok _ s₂ _ h₁₂ ha hof.symm
    · rename_i hbeyond'
      rw [← hof] at hbeyond' ⊢
      exact hbeyond _ s₂ h₁₂ (by simpa using hbeyond')

/-- The check of the funds under the lock of the balance. -/
theorem wp_lockAndAssertSufficient (hR : Regime R) {id : Uuid} {amount : Money}
    {Q : Post Db LockKey Write AppError Money}
    (hrow : ∀ s', Rely R f.held s s' → ((f.view database s').balance id).isSome = true)
    (hguard : ∀ v₁ s', Rely R f.held s s' →
      T.guard (f.saw v₁) (.balance id, .exclusive) s')
    (hok : ∀ v₁ s' money, Rely R f.held s s' →
      T.admits (f.saw v₁) (.lock (.balance id) .exclusive) s' →
      money.minor = (f.view database s').balanceOf id → amount.minor ≤ money.minor →
      Q (.ok money) ((f.saw v₁).locked (.balance id) .exclusive (f.view database s')) s')
    (hshort : ∀ v₁ s', Rely R f.held s s' →
      T.admits (f.saw v₁) (.lock (.balance id) .exclusive) s' →
      (f.view database s').balanceOf id < amount.minor →
      Q (.error (.insufficientFunds ((f.view database s').balanceOf id) amount.minor))
        ((f.saw v₁).locked (.balance id) .exclusive (f.view database s')) s')
    (hbeyond : ∀ v₁ s', Rely R f.held s s' →
      Js.isSafeInteger ((f.view database s').balanceOf id) = false →
      Q (.error (.unsafeBigint ((f.view database s').balanceOf id)))
        ((f.saw v₁).locked (.balance id) .exclusive (f.view database s')) s') :
    wp database R T (lockAndAssertSufficient id amount) f s Q := by
  unfold lockAndAssertSufficient
  refine wp_bind.2 (wp_lockBalanceForUpdate hR hrow hguard (fun v₁ s' money h ha hmoney => ?_)
    hbeyond)
  refine onValue_ok ?_
  split
  · rename_i hlt
    rw [hmoney] at hlt ⊢
    exact hshort v₁ s' h ha hlt
  · rename_i hle
    exact hok v₁ s' money h ha hmoney (not_lt.1 hle)

/-- The wallet of a user, by a plain read. -/
theorem wp_getWalletAccountId (hR : Regime R)
    (P : Progress R f₀ s₀ locks rows (underLock M) f s) {userId : Uuid}
    {Q : Post Db LockKey Write AppError Uuid}
    (hok : ∀ a f' s', Later R f s f' s' → Progress R f₀ s₀ locks rows (underLock M) f' s' →
      (database.applyAll (f₀.view database s') rows).accountByKey (walletKey userId) = some a →
      Q (.ok a.id) f' s')
    (hmissing : ∀ f' s', Progress R f₀ s₀ locks rows (underLock M) f' s' →
      (database.applyAll (f₀.view database s') rows).accountByKey (walletKey userId) = none →
      Q (.error (.accountNotFound (.inr (walletKey userId)))) f' s') :
    wp database R T (getWalletAccountId userId) f s Q := by
  unfold getWalletAccountId
  refine wp_bind.2 (wp_selectAt hR P fun f' s' h P' => ?_)
  cases ha : (database.applyAll (f₀.view database s') rows).accountByKey (walletKey userId) with
  | none => exact hmissing f' s' P' ha
  | some a => exact hok a f' s' h P' ha

/-- A balance is returned when it is a safe integer. -/
theorem wp_getBalance (hR : Regime R) (P : Progress R f₀ s₀ locks rows (underLock M) f s)
    {id : Uuid} {Q : Post Db LockKey Write AppError Money}
    (hok : ∀ money f' s', Later R f s f' s' → Progress R f₀ s₀ locks rows (underLock M) f' s' →
      Q (.ok money) f' s')
    (hbeyond : ∀ n f' s', Later R f s f' s' → Progress R f₀ s₀ locks rows (underLock M) f' s' →
      n = (database.applyAll (f₀.view database s') rows).balanceOf id →
      Js.isSafeInteger n = false → Q (.error (.unsafeBigint n)) f' s') :
    wp database R T (getBalance id) f s Q := by
  unfold getBalance
  refine wp_bind.2 (wp_selectAt hR P fun f' s' h P' => onValue_ok (wp_check ?_))
  unfold readBigint
  split
  · exact hok _ f' s' h P'
  · rename_i hns
    exact hbeyond _ f' s' h P' rfl (by simpa using hns)

end

end Tessera
