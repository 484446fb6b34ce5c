import Tessera.Database.Isolation
import Tessera.Ledger.Service
import Tessera.Transactions.Progress

/-!
# Reasoning about the statements

Rules for the statements that the services share, under any discipline that respects the row
locks of the schema.

* `Tidy` — no protected account is overdrawn;
* `Regime`, `Fair` — the disciplines and the terms that the rules apply to;
* `wp_claim`, `wp_putRow`, `wp_assertReference`, and the rules for the inserts.
-/

namespace Tessera

open Relational Transactions Transactions.Program

/-- No account of a kind that must not be overdrawn is. -/
def Tidy (s : Db) : Prop :=
  ∀ id a, s.account id = some a → a.kind.neverNegative = true → 0 ≤ s.balanceOf id

/-- Whether an account is overdrawn depends on the accounts and the balances only. -/
theorem Tidy.of_eq {s s' : Db} (h : Tidy s) (ha : s'.accounts = s.accounts)
    (hb : s'.balances = s.balances) : Tidy s' := by
  intro id a hid hkind
  have hid' : s.account id = some a := by
    unfold Db.account at hid ⊢
    rwa [ha] at hid
  have hbalance : s'.balanceOf id = s.balanceOf id := by
    unfold Db.balanceOf Db.balance
    rw [hb]
  rw [hbalance]
  exact h id a hid' hkind

/-- A write to a table other than `accounts` and `balances`. -/
theorem Tidy.apply_other {s : Db} {w : Write} (h : Tidy s)
    (hw : ∀ a, w ≠ .insertAccount a) (hw' : ∀ id amount, w ≠ .addBalance id amount) :
    Tidy (s.apply w) := by
  refine h.of_eq ?_ ?_
  · rw [Db.apply_accounts]
    split
    · exact absurd rfl (hw _)
    · rfl
  · rw [Db.apply_balances]
    split
    · exact absurd rfl (hw _)
    · exact absurd rfl (hw' _ _)
    · rfl

/-- The rows that the claim of deadlock freedom is about; the other locks are waits on an
entry of a unique index. -/
def LockKey.isRow : LockKey → Bool
  | .round _ | .bet _ | .balance _ => true
  | _ => false

/-- The disciplines under which the statements can be reasoned about. -/
structure Regime (R : Discipline Db LockKey Write) : Prop where
  regular : R.Regular
  needs : ∀ w, R.needs w ⊆ needs w
  same : ∀ {k m s s'}, R.same k m s s' → Same k m s s'
  grows : ∀ {s s'}, R.grows s s' → Grows s s'
  tidy : ∀ {s w}, (Tidy s → Tidy (s.apply w)) → R.tidy s → R.tidy (s.apply w)
  draw : ∀ {held s}, R.inv s → Rely R held s (s.apply .drawEntryId)

/-- Terms that say nothing about waits on an index, and allow an entry id to be drawn. -/
structure Fair (T : Terms Db LockKey Write) : Prop where
  guard : ∀ f k s, k.1.isRow = false → T.guard f k s
  entryId : ∀ s, T.draws s .drawEntryId

/-- What is true of the balances that were read under their locks. -/
def underLock (M : Uuid → Db → Prop) (e : Reading Db LockKey) : Prop :=
  ∀ id, e.key = some (.balance id) → M id e.state

/-- Nothing is asked of a read under another lock than that of a balance. -/
theorem underLock_other (M : Uuid → Db → Prop) {k : LockKey} (v : Db)
    (h : ∀ id, k ≠ .balance id) : underLock M ⟨some k, v⟩ :=
  fun id hid => absurd (Option.some.inj hid) (h id)

theorem append_subset_append {α : Type} {l l' more : List α} (h : l ⊆ l') :
    l ++ more ⊆ l' ++ more :=
  List.append_subset.2 ⟨List.Subset.trans h (List.subset_append_left _ _),
    List.subset_append_right _ _⟩

/-- Two states that agree on what a lock protects agree on it after the same writes. -/
theorem Same.applyAll {k : LockKey} {m : LockMode} (rows : List Write) {s s' : Db}
    (h : Same k m s s') : Same k m (database.applyAll s rows) (database.applyAll s' rows) := by
  induction rows generalizing s s' with
  | nil => exact h
  | cons w rows ih => exact ih (h.congr w)

section
variable {R : Discipline Db LockKey Write} {T : Terms Db LockKey Write}
variable {f f' : Standing Db LockKey Write} {s s' : Db} {M : Uuid → Db → Prop}
variable {locks : List (LockKey × LockMode)} {rows : List Write}

/-- A session keeps seeing an account that was committed. -/
theorem Grows.accountByKey_view (h : Grows s s') {key : AccountKey} {a : Account}
    (ha : s.accountByKey key = some a) (f : Standing Db LockKey Write) :
    (f.view database s').accountByKey key = some a :=
  (Grows.applyAll s' f.pending).accountByKey (h.accountByKey ha)

/-! ## Rows that stay in sight -/

/-- A key is found if and only if a row has it. -/
theorem lookup_isSome {ρ : Type} {key : ρ → Uuid} {rows : List ρ} {id : Uuid} :
    (lookup key rows id).isSome = true ↔ id ∈ rows.map key := by
  unfold lookup
  rw [List.find?_isSome]
  simp [eq_comm]

/-- The same writes keep every id of one state among those of a larger one. -/
theorem applyAll_ids (rows : List Write) {s s' : Db} :
    (s.users.map User.id ⊆ s'.users.map User.id →
      (database.applyAll s rows).users.map User.id ⊆
        (database.applyAll s' rows).users.map User.id) ∧
    (s.accounts.map Account.id ⊆ s'.accounts.map Account.id →
      (database.applyAll s rows).accounts.map Account.id ⊆
        (database.applyAll s' rows).accounts.map Account.id) ∧
    (s.balances.map Balance.accountId ⊆ s'.balances.map Balance.accountId →
      (database.applyAll s rows).balances.map Balance.accountId ⊆
        (database.applyAll s' rows).balances.map Balance.accountId) := by
  induction rows generalizing s s' with
  | nil => exact ⟨id, id, id⟩
  | cons w rows ih =>
    obtain ⟨hu, ha, hb⟩ := @ih (s.apply w) (s'.apply w)
    refine ⟨fun h => hu ?_, fun h => ha ?_, fun h => hb ?_⟩
    · rw [Db.apply_users, Db.apply_users]
      split
      · rw [List.map_append, List.map_append]
        exact append_subset_append h
      · exact h
    · rw [Db.apply_accounts, Db.apply_accounts]
      split
      · rw [List.map_append, List.map_append]
        exact append_subset_append h
      · exact h
    · rw [Db.apply_balances, Db.apply_balances]
      split
      · rw [List.map_append, List.map_append]
        exact append_subset_append h
      · rw [map_key_modify (Balance.add_accountId _), map_key_modify (Balance.add_accountId _)]
        exact h
      · exact h

/-- A user that is there stays there. -/
theorem Grows.user_view (h : Grows s s') (f : Standing Db LockKey Write) {id : Uuid}
    (hu : ((f.view database s).user id).isSome = true) :
    ((f.view database s').user id).isSome = true :=
  lookup_isSome.2 ((applyAll_ids f.pending).1 (h.users.map _).subset (lookup_isSome.1 hu))

/-- An account that is there stays there. -/
theorem Grows.account_isSome (h : Grows s s') (f : Standing Db LockKey Write) {id : Uuid}
    (ha : ((f.view database s).account id).isSome = true) :
    ((f.view database s').account id).isSome = true :=
  lookup_isSome.2 ((applyAll_ids f.pending).2.1 (h.accounts.map _).subset (lookup_isSome.1 ha))

/-- A balances row that is there stays there. -/
theorem Grows.balance_isSome (h : Grows s s') (f : Standing Db LockKey Write) {id : Uuid}
    (hb : ((f.view database s).balance id).isSome = true) :
    ((f.view database s').balance id).isSome = true :=
  lookup_isSome.2 ((applyAll_ids f.pending).2.2 h.balances.subset (lookup_isSome.1 hb))

/-! ## Statements

Each rule takes a session from one recorded point to the next. -/

variable {f₀ : Standing Db LockKey Write} {s₀ : Db} {α : Type}

/-- What a lock held now keeps the same in the state seen at an earlier point. -/
theorem Regime.same_later (hR : Regime R) (h : Later R f s f' s') {k : LockKey} {m : LockMode}
    (hk : (k, m) ∈ f.held) (f₀ : Standing Db LockKey Write) :
    Same k m (f₀.view database s) (f₀.view database s') :=
  (hR.same (h.rely.same _ hk)).applyAll f₀.pending

/-- A `SELECT` returns what the session sees: the committed state with its own writes on it. -/
theorem wp_selectAt (hR : Regime R) (P : Progress R f₀ s₀ locks rows (underLock M) f s)
    {view : Db → α} {Q : Post Db LockKey Write AppError α}
    (h : ∀ f' s', Later R f s f' s' →
      Progress R f₀ s₀ locks rows (underLock M) f' s' →
      Q (.ok (view (database.applyAll (f₀.view database s') rows))) f' s') :
    wp database R T (select view : Action α) f s Q := by
  refine wp_select fun s' hs' => ?_
  rw [P.view]
  exact h _ s' ⟨hs', List.Subset.refl _⟩ ((P.wait hR.regular hs').saw _)

/-- A row lock is granted when the guard allows it, and what is read then is read under it. -/
theorem wp_acquireAt (hR : Regime R) (P : Progress R f₀ s₀ locks rows (underLock M) f s)
    {key : LockKey} {mode : LockMode} {view : Db → α} {Q : Post Db LockKey Write AppError α}
    (hguard : ∀ s', Rely R f.held s s' → T.guard f (key, mode) s')
    (hM : ∀ s', Rely R f.held s s' →
      underLock M ⟨some key, database.applyAll (f₀.view database s') rows⟩)
    (h : ∀ f' s', Later R f s f' s' → T.admits f (.lock key mode) s' →
      Progress R f₀ s₀ ((key, mode) :: locks) rows (underLock M) f' s' →
      Q (.ok (view (database.applyAll (f₀.view database s') rows))) f' s') :
    wp database R T (acquire key mode view : Action α) f s Q := by
  refine wp_acquire hguard fun s' hs' ha => ?_
  have hL := hM s' hs'
  rw [← P.view] at hL
  have hQ := h (f.locked key mode (f.view database s')) s'
    ⟨hs', List.subset_cons_self _ _⟩ ha ((P.wait hR.regular hs').locked hL)
  rwa [← P.view] at hQ

/-- A unique constraint: the key is locked, and it is free or taken. -/
theorem wp_claim (hR : Regime R) (P : Progress R f₀ s₀ locks rows (underLock M) f s)
    {key : LockKey} {taken : Db → Bool} {constraint : String}
    {Q : Post Db LockKey Write AppError Unit} (hkey : ∀ id, key ≠ .balance id)
    (hguard : ∀ s', Rely R f.held s s' → T.guard f (key, .exclusive) s')
    (hfree : ∀ f' s', Later R f s f' s' →
      Progress R f₀ s₀ ((key, .exclusive) :: locks) rows (underLock M) f' s' →
      taken (database.applyAll (f₀.view database s') rows) = false → Q (.ok ()) f' s')
    (htaken : ∀ f' s', Later R f s f' s' →
      Progress R f₀ s₀ ((key, .exclusive) :: locks) rows (underLock M) f' s' →
      taken (database.applyAll (f₀.view database s') rows) = true →
      T.admits f (.lock key .exclusive) s' → Q (.error (.uniqueViolation constraint)) f' s') :
    wp database R T (claim key taken constraint) f s Q := by
  refine wp_bind.2 (wp_acquireAt hR P hguard (fun s' _ => underLock_other M _ hkey) ?_)
  intro f' s' hs' ha P'
  refine wp_ensure (fun h => ?_) (fun h => ?_)
  · exact hfree f' s' hs' P' (by simpa using h)
  · exact htaken f' s' hs' P' (by simpa using h) ha

/-- A foreign key: the row is in sight or it is missing. -/
theorem wp_assertReference (hR : Regime R)
    (P : Progress R f₀ s₀ locks rows (underLock M) f s) {there : Db → Bool}
    {constraint : String} {Q : Post Db LockKey Write AppError Unit}
    (hthere : ∀ f' s', Later R f s f' s' →
      Progress R f₀ s₀ locks rows (underLock M) f' s' →
      there (database.applyAll (f₀.view database s') rows) = true → Q (.ok ()) f' s')
    (hmissing : ∀ f' s', Later R f s f' s' →
      Progress R f₀ s₀ locks rows (underLock M) f' s' →
      there (database.applyAll (f₀.view database s') rows) = false →
      Q (.error (.foreignKeyViolation constraint)) f' s') :
    wp database R T (assertReference there constraint) f s Q := by
  refine wp_bind.2 (wp_selectAt hR P fun f' s' hs' P' => ?_)
  exact wp_ensure (hthere f' s' hs' P') (hmissing f' s' hs' P')

/-- The check constraints of a row hold, or the first that does not is reported. -/
theorem wp_assertChecks {violated : Option String} {Q : Post Db LockKey Write AppError Unit}
    (hok : violated = none → Q (.ok ()) f s)
    (herror : ∀ c, violated = some c → Q (.error (.checkViolation c)) f s) :
    wp database R T (assertChecks violated) f s Q := by
  unfold assertChecks
  cases violated with
  | none => exact hok rfl
  | some c => exact herror c rfl

/-- A write, under the locks that it needs, that overdraws no account. -/
theorem wp_putAt (hR : Regime R) (P : Progress R f₀ s₀ locks rows (underLock M) f s)
    {w : Write} {Q : Post Db LockKey Write AppError Unit} (hneeds : needs w ⊆ f.held)
    (htidy : ∀ s', Rely R f.held s s' →
      Tidy (database.applyAll (f₀.view database s') rows) →
      Tidy ((database.applyAll (f₀.view database s') rows).apply w))
    (h : ∀ f' s', Later R f s f' s' →
      Progress R f₀ s₀ locks (rows ++ [w]) (underLock M) f' s' → Q (.ok ()) f' s') :
    wp database R T (put w : Action Unit) f s Q := by
  refine wp_put (List.Subset.trans (hR.needs w) hneeds) (fun s' hs' => hR.tidy ?_) ?_
  · rw [P.view]
    exact htidy s' hs'
  · exact fun s' hs' =>
      h _ s' ⟨hs', List.Subset.refl _⟩ ((P.wait hR.regular hs').wrote w)

/-- A write to a table other than `accounts` and `balances`. -/
theorem wp_putOther (hR : Regime R) (P : Progress R f₀ s₀ locks rows (underLock M) f s)
    {w : Write} {Q : Post Db LockKey Write AppError Unit} (hneeds : needs w ⊆ f.held)
    (hw : ∀ a, w ≠ .insertAccount a) (hw' : ∀ id amount, w ≠ .addBalance id amount)
    (h : ∀ f' s', Later R f s f' s' →
      Progress R f₀ s₀ locks (rows ++ [w]) (underLock M) f' s' → Q (.ok ()) f' s') :
    wp database R T (put w : Action Unit) f s Q :=
  wp_putAt hR P hneeds (fun _ _ ht => ht.apply_other hw hw') h

/-- `SELECT … FOR UPDATE` of at most one row. -/
theorem wp_selectForLockAt (hR : Regime R)
    (P : Progress R f₀ s₀ locks rows (underLock M) f s) {mode : LockMode} {key : α → LockKey}
    {view : Db → Option α} {Q : Post Db LockKey Write AppError (Option α)}
    (hnone : ∀ f' s', Later R f s f' s' →
      Progress R f₀ s₀ locks rows (underLock M) f' s' →
      view (database.applyAll (f₀.view database s') rows) = none → Q (.ok none) f' s')
    (hguard : ∀ f₁ s₁ row s₂, Rely R f.held s s₁ → f₁.held = f.held →
      view (database.applyAll (f₀.view database s₁) rows) = some row →
      Rely R f.held s₁ s₂ → T.guard f₁ (key row, mode) s₂)
    (hM : ∀ s₁ row s₂, Rely R f.held s s₁ →
      view (database.applyAll (f₀.view database s₁) rows) = some row → Rely R f.held s₁ s₂ →
      underLock M ⟨some (key row), database.applyAll (f₀.view database s₂) rows⟩)
    (hsome : ∀ f₁ s₁ row f' s', Later R f s f₁ s₁ →
      view (database.applyAll (f₀.view database s₁) rows) = some row →
      Later R f₁ s₁ f' s' → T.admits f₁ (.lock (key row) mode) s' →
      Progress R f₀ s₀ ((key row, mode) :: locks) rows (underLock M) f' s' →
      Q (.ok (view (database.applyAll (f₀.view database s') rows))) f' s') :
    wp database R T (selectForLock mode key view : Action (Option α)) f s Q := by
  refine wp_selectForLock (fun s₁ h₁ hview => ?_) (fun s₁ row h₁ hview s₂ h₂ => ?_)
    fun s₁ row h₁ hview s₂ h₂ ha => ?_
  · rw [P.view] at hview
    exact hnone _ s₁ ⟨h₁, List.Subset.refl _⟩ ((P.wait hR.regular h₁).saw _) hview
  · rw [P.view] at hview
    exact hguard _ s₁ row s₂ h₁ rfl hview h₂
  · have P₁ := (P.wait hR.regular h₁).saw (f.view database s₁)
    rw [P.view] at hview
    have hL := hM s₁ row s₂ h₁ hview h₂
    rw [← P.view] at hL
    have hQ := hsome (f.saw (f.view database s₁)) s₁ row
      ((f.saw (f.view database s₁)).locked (key row) mode (f.view database s₂)) s₂
      ⟨h₁, List.Subset.refl _⟩ hview ⟨h₂, List.subset_cons_self _ _⟩ ha ((P₁.wait hR.regular h₂).locked hL)
    rwa [← P.view] at hQ

/-! ## Inserts -/

theorem isSome_false {o : Option α} (h : o.isSome = false) : o = none := by
  cases o with
  | none => rfl
  | some a => cases h

/-- A new account starts at zero. -/
theorem Tidy.insertAccount {s : Db} (h : Tidy s) {a : Account} (hb : s.balance a.id = none) :
    Tidy (s.apply (.insertAccount a)) := by
  intro id b hb' hkind
  have hbalance : (s.apply (.insertAccount a)).balance id =
      if a.id = id then some ⟨a.id, 0⟩ else s.balance id := by
    split
    case isTrue hid =>
      subst hid
      exact lookup_append_new hb
    case isFalse hid => exact lookup_append_ne hid
  unfold Db.balanceOf
  rw [hbalance]
  split
  case isTrue => exact le_refl 0
  case isFalse hid =>
    have haccount : s.account id = some b := (lookup_append_ne hid).symm.trans hb'
    exact h id b haccount hkind

/-- `INSERT INTO users`, on terms that say nothing about waiting. -/
theorem wp_insertUser (hR : Regime R) (hguard : ∀ f k s, T.guard f k s)
    (P : Progress R f₀ s₀ locks rows (underLock M) f s) {u : User}
    {Q : Post Db LockKey Write AppError Unit}
    (hok : ∀ f' s', Later R f s f' s' →
      Progress R f₀ s₀ ((.userEmail u.email.lower, .exclusive) ::
        (.user u.id, .exclusive) :: locks) (rows ++ [.insertUser u]) (underLock M) f' s' →
      (database.applyAll (f₀.view database s') rows).user u.id = none → Q (.ok ()) f' s')
    (herror : ∀ e f' s', Later R f s f' s' → Q (.error e) f' s') :
    wp database R T (insertUser u) f s Q := by
  refine wp_bind.2 (wp_assertChecks (fun _ => onValue_ok ?_) fun _ _ =>
    herror _ _ _ (.refl hR.regular P.rely.inv))
  refine wp_bind.2 (wp_claim hR P (by simp) (fun _ _ => hguard _ _ _) (fun f₁ s₁ h₁ P₁ hid =>
    onValue_ok ?_) fun _ _ h₁ _ _ _ => herror _ _ _ h₁)
  refine wp_bind.2 (wp_claim hR P₁ (by simp) (fun _ _ => hguard _ _ _) (fun f₂ s₂ h₂ P₂ _ =>
    onValue_ok ?_) fun _ _ h₂ _ _ _ => herror _ _ _ (h₁.trans hR.regular h₂))
  refine wp_putOther hR P₂ ?_ (by simp) (by simp) fun f₃ s₃ h₃ P₃ => ?_
  · have hgot := P₂.got
    simp only [List.cons_subset] at hgot
    simp [Tessera.needs, hgot]
  · refine hok f₃ s₃ ((h₁.trans hR.regular h₂).trans hR.regular h₃) P₃ ?_
    have hsame := (hR.same_later (h₂.trans hR.regular h₃) (P₁.got List.mem_cons_self) f₀).applyAll
      rows
    have hnone : (database.applyAll (f₀.view database s₁) rows).user u.id = none :=
      isSome_false hid
    exact Eq.trans hsame hnone

/-- The index entry that keeps a second wallet, or a second account of the system, out. -/
def ownerLock (a : Account) : LockKey :=
  match a.ownerUserId with
  | some owner => .accountOwner owner
  | none => .accountSystemKind a.kind

/-- The locks that the insert of an account takes. -/
def accountLocks (a : Account) : List (LockKey × LockMode) :=
  [(.balance a.id, .exclusive), (ownerLock a, .exclusive), (.accountKey a.key, .exclusive),
    (.account a.id, .exclusive)]

/-- `INSERT INTO accounts`, on terms that say nothing about waiting. -/
theorem wp_insertAccount (hR : Regime R) (hguard : ∀ f k s, T.guard f k s)
    (hM : ∀ id v, M id v) (P : Progress R f₀ s₀ locks rows (underLock M) f s) {a : Account}
    {Q : Post Db LockKey Write AppError Unit}
    (hok : ∀ f' s', Later R f s f' s' →
      Progress R f₀ s₀ (accountLocks a ++ locks) (rows ++ [.insertAccount a]) (underLock M) f' s' →
      (database.applyAll (f₀.view database s') rows).account a.id = none →
      (database.applyAll (f₀.view database s') rows).accountByKey a.key = none →
      (database.applyAll (f₀.view database s') rows).balance a.id = none → Q (.ok ()) f' s')
    (herror : ∀ e f' s', Later R f s f' s' → Q (.error e) f' s') :
    wp database R T (insertAccount a) f s Q := by
  refine wp_bind.2 (wp_assertChecks (fun _ => onValue_ok ?_) fun _ _ =>
    herror _ _ _ (.refl hR.regular P.rely.inv))
  refine wp_bind.2 (wp_claim hR P (by simp) (fun _ _ => hguard _ _ _) (fun f₁ s₁ h₁ P₁ hid =>
    onValue_ok ?_) fun _ _ h₁ _ _ _ => herror _ _ _ h₁)
  refine wp_bind.2 (wp_claim hR P₁ (by simp) (fun _ _ => hguard _ _ _) (fun f₂ s₂ h₂ P₂ hkey =>
    onValue_ok ?_) fun _ _ h₂ _ _ _ => herror _ _ _ (h₁.trans hR.regular h₂))
  have h₀₂ := h₁.trans hR.regular h₂
  -- the rest does not depend on who owns the account
  have hrest : ∀ f₃ s₃, Later R f₂ s₂ f₃ s₃ →
      Progress R f₀ s₀ ((ownerLock a, .exclusive) :: (.accountKey a.key, .exclusive) ::
        (.account a.id, .exclusive) :: locks) rows (underLock M) f₃ s₃ →
      ∀ {tail : Action Unit}, (∀ f₅ s₅, Later R f₂ s₂ f₅ s₅ →
          Progress R f₀ s₀ (accountLocks a ++ locks) (rows ++ [.insertAccount a]) (underLock M)
            f₅ s₅ →
          (database.applyAll (f₀.view database s₅) rows).balance a.id = none →
          wp database R T tail f₅ s₅ Q) →
      wp database R T (do
        claim (.balance a.id) (fun s => (s.balance a.id).isSome) "balances_pkey"
        put (.insertAccount a)
        tail) f₃ s₃ Q := by
    intro f₃ s₃ h₃ P₃ tail htail
    refine wp_bind.2 (wp_bind.2 (wp_acquireAt hR P₃ (fun _ _ => hguard _ _ _)
      (fun _ _ _ _ => hM _ _) fun f₄ s₄ h₄ _ P₄ => wp_ensure (fun hfree => onValue_ok ?_) fun _ =>
        herror _ _ _ (h₀₂.trans hR.regular (h₃.trans hR.regular h₄))))
    have hnone : ∀ {f' s'}, Later R f₄ s₄ f' s' →
        (database.applyAll (f₀.view database s') rows).balance a.id = none := by
      intro f' s' h
      have hsame := (hR.same_later h (P₄.got List.mem_cons_self) f₀).applyAll rows
      have hnow : (database.applyAll (f₀.view database s₄) rows).balance a.id = none :=
        isSome_false (by simpa using hfree)
      exact Eq.trans hsame.1 hnow
    refine wp_bind.2 (wp_putAt hR P₄ ?_ (fun s' hs' ht => ht.insertAccount
      (hnone ⟨hs', List.Subset.refl _⟩)) fun f₅ s₅ h₅ P₅ => onValue_ok ?_)
    · have hgot := P₄.got
      simp only [List.cons_subset] at hgot
      show [(LockKey.account a.id, LockMode.exclusive), (.accountKey a.key, .exclusive),
        (ownerLock a, .exclusive), (.balance a.id, .exclusive)] ⊆ _
      simp [hgot]
    · exact htail f₅ s₅ ((h₃.trans hR.regular h₄).trans hR.regular h₅) P₅ (hnone h₅)
  have hdone : ∀ f₆ s₆, Later R f₂ s₂ f₆ s₆ →
      Progress R f₀ s₀ (accountLocks a ++ locks) (rows ++ [.insertAccount a]) (underLock M)
        f₆ s₆ →
      (database.applyAll (f₀.view database s₆) rows).balance a.id = none → Q (.ok ()) f₆ s₆ := by
    intro f₆ s₆ h₆ P₆ hbalance
    refine hok f₆ s₆ (h₀₂.trans hR.regular h₆) P₆ ?_ ?_ hbalance
    · have hsame := (hR.same_later (h₂.trans hR.regular h₆) (P₁.got List.mem_cons_self) f₀).applyAll
        rows
      have hnone : (database.applyAll (f₀.view database s₁) rows).account a.id = none :=
        isSome_false hid
      exact Eq.trans hsame hnone
    · have hsame := (hR.same_later h₆ (P₂.got List.mem_cons_self) f₀).applyAll rows
      have hnone : (database.applyAll (f₀.view database s₂) rows).accountByKey a.key = none :=
        isSome_false hkey
      exact Eq.trans hsame hnone
  cases howner : a.ownerUserId with
  | none =>
    have howned : ownerLock a = .accountSystemKind a.kind := by
      unfold ownerLock
      rw [howner]
    refine wp_bind.2 (wp_claim hR P₂ (by simp) (fun _ _ => hguard _ _ _) (fun f₃ s₃ h₃ P₃ _ =>
      onValue_ok ?_) fun _ _ h₃ _ _ _ => herror _ _ _ (h₀₂.trans hR.regular h₃))
    rw [← howned] at P₃
    exact hrest f₃ s₃ h₃ P₃ fun f₅ s₅ h₅ P₅ hbalance => wp_pure (hdone f₅ s₅ h₅ P₅ hbalance)
  | some owner =>
    have howned : ownerLock a = .accountOwner owner := by
      unfold ownerLock
      rw [howner]
    refine wp_bind.2 (wp_claim hR P₂ (by simp) (fun _ _ => hguard _ _ _) (fun f₃ s₃ h₃ P₃ _ =>
      onValue_ok ?_) fun _ _ h₃ _ _ _ => herror _ _ _ (h₀₂.trans hR.regular h₃))
    rw [← howned] at P₃
    refine hrest f₃ s₃ h₃ P₃ fun f₅ s₅ h₅ P₅ hbalance => wp_assertReference hR P₅
      (fun f₆ s₆ h₆ P₆ _ => hdone f₆ s₆ (h₅.trans hR.regular h₆) P₆ ?_)
      fun f₆ s₆ h₆ _ _ => herror _ _ _ (h₀₂.trans hR.regular (h₅.trans hR.regular h₆))
    have hlock : (LockKey.balance a.id, LockMode.exclusive) ∈ f₅.held :=
      P₅.got (List.mem_append_left _ List.mem_cons_self)
    exact Eq.trans ((hR.same_later h₆ hlock f₀).applyAll rows).1 hbalance

/-- Why an `INSERT INTO bets` fails, in the state as the session saw it before. -/
inductive InsertBetFails (b : Bet) (v : Db) : AppError → Prop
  | check {c : String} : b.violated = some c → InsertBetFails b v (.checkViolation c)
  | primaryKey : (v.bet b.id).isSome = true → InsertBetFails b v (.uniqueViolation "bets_pkey")
  | idempotency :
      (v.bets.any fun c => c.userId == b.userId && c.idempotencyKey == b.idempotencyKey) = true →
      InsertBetFails b v (.uniqueViolation "bets_user_idempotency")
  | user : v.user b.userId = none → InsertBetFails b v (.foreignKeyViolation "bets_user_id_fkey")
  | round : v.round b.roundId = none →
      InsertBetFails b v (.foreignKeyViolation "bets_round_id_fkey")

/-- The locks that an `INSERT INTO bets` takes. -/
def betLocks (b : Bet) : List (LockKey × LockMode) :=
  [(.betIdempotency b.userId b.idempotencyKey, .exclusive), (.bet b.id, .exclusive)]

/-- What an `INSERT INTO bets` that succeeds has checked. -/
structure BetInserted (b : Bet) (v : Db) : Prop where
  checks : b.violated = none
  id : v.bet b.id = none
  key : (v.bets.any fun c => c.userId == b.userId && c.idempotencyKey == b.idempotencyKey) = false
  user : (v.user b.userId).isSome = true

/-- An `INSERT` of a bet: its keys are locked, and the row is there or a constraint rejects it. -/
theorem wp_insertBet (hR : Regime R) (hT : Fair T) (hinv : R.inv s) {b : Bet}
    {Q : Post Db LockKey Write AppError Unit} (hround : (.round b.roundId, .share) ∈ f.held)
    (hguard : ∀ s', Rely R f.held s s' → T.guard f (.bet b.id, .exclusive) s')
    (hok : ∀ f' s', Progress R f s (betLocks b) [.insertBet b] (underLock M) f' s' →
      BetInserted b (f.view database s') → Q (.ok ()) f' s')
    (herror : ∀ e f' s', Aborted R f s (underLock M) f' s' →
      InsertBetFails b (f.view database s') e →
      (e = .uniqueViolation "bets_pkey" → T.admits f (.lock (.bet b.id) .exclusive) s') →
      Q (.error e) f' s') :
    wp database R T (insertBet b) f s Q := by
  have P₀ : Progress R f s [] [] (underLock M) f s := .refl hR.regular hinv _
  unfold insertBet
  refine wp_bind.2 (wp_assertChecks (fun hchecks => ?_) fun c hc =>
    herror _ _ _ P₀.aborted (.check hc) (by simp))
  refine wp_bind.2 (wp_claim hR P₀ (by simp) hguard (fun f₁ s₁ h₁ P₁ hid => ?_)
    fun f₁ s₁ h₁ P₁ htaken ha => herror _ _ _ P₁.aborted (.primaryKey htaken) fun _ => ha)
  refine wp_bind.2 (wp_claim hR P₁ (by simp) (fun s₂ _ => hT.guard _ _ s₂ rfl)
    (fun f₂ s₂ h₂ P₂ hkey => ?_)
    fun f₂ s₂ h₂ P₂ htaken _ => herror _ _ _ P₂.aborted (.idempotency htaken) (by simp))
  refine wp_bind.2 (wp_putOther hR P₂ ?_ (by simp) (by simp) fun f₃ s₃ h₃ P₃ => ?_)
  · have hgot := P₂.got
    have hshare := P₂.kept hround
    simp only [needs, List.cons_subset, List.nil_subset, and_true] at hgot ⊢
    exact ⟨hgot.2, hgot.1, hshare⟩
  refine wp_bind.2 (wp_assertReference hR P₃ (fun f₄ s₄ h₄ P₄ huser => ?_)
    fun f₄ s₄ h₄ P₄ hmissing => herror _ _ _ P₄.aborted (.user (isSome_false hmissing)) (by simp))
  refine onValue_ok (wp_assertReference hR P₄ (fun f₅ s₅ h₅ P₅ _ => ?_)
    fun f₅ s₅ h₅ P₅ hmissing => ?_)
  case refine_2 =>
    have hnone : (f.view database s₅).round b.roundId = none := isSome_false hmissing
    exact herror _ _ _ P₅.aborted (.round hnone) (by simp)
  have h₂₅ := ((h₃.trans hR.regular h₄).trans hR.regular h₅)
  have h₁₅ := h₂.trans hR.regular h₂₅
  refine hok f₅ s₅ P₅ ⟨hchecks, ?_, ?_, ?_⟩
  · have hsame : (f.view database s₅).bet b.id = (f.view database s₁).bet b.id :=
      hR.same_later h₁₅ (P₁.got List.mem_cons_self) f
    rw [hsame]
    simpa using hid
  · have hsame : ((f.view database s₅).bets.any fun c =>
          c.userId == b.userId && c.idempotencyKey == b.idempotencyKey) =
        (f.view database s₂).bets.any fun c =>
          c.userId == b.userId && c.idempotencyKey == b.idempotencyKey :=
      hR.same_later h₂₅ (P₂.got List.mem_cons_self) f
    rw [hsame]
    exact hkey
  · exact (hR.grows h₅.rely.grows).user_view f huser

end

end Tessera
