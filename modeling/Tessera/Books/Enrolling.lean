import Tessera.Books.Settling

/-!
# Registering keeps the terms

* `wp_createWallet`, `wp_insertToken` — the wallet and the token of a new user;
* `register_verified` — `register` keeps the discipline of the books.
-/

namespace Tessera

open Relational Transactions Transactions.Program

/-- A random UUID is none of the ids of the system's accounts. -/
theorem Uuid.isVersion4.gt {u : Uuid} (h : u.isVersion4 = true) : 3 < u := by
  unfold Uuid.isVersion4 at h
  by_contra hle
  have hzero : u / 2 ^ 76 = 0 := Nat.div_eq_of_lt (lt_of_le_of_lt (not_lt.1 hle) (by decide))
  rw [hzero] at h
  cases h

section
variable {config : Config} {crypto : Crypto} {dto : RegisterDto} {f f' f₀ : Standing Db LockKey Write}
variable {s s' s₀ : Db} {locks : List (LockKey × LockMode)} {rows : List Write}

/-- `register` may take the locks of its new rows wherever it stands. -/
theorem register_guard (f : Standing Db LockKey Write) (k : LockKey × LockMode) (s : Db) :
    (terms config (.register dto)).guard f k s :=
  fun h => absurd h Bool.false_ne_true

/-- The wallet of a new user. -/
def walletRow (id userId : Uuid) : Account := ⟨id, .WALLET, some userId, walletKey userId⟩

/-- `INSERT INTO accounts`, for a wallet. -/
theorem wp_createWallet (P : Progress (books config) f₀ s₀ locks rows anyReading f s)
    {userId : Uuid} {Q : Post Db LockKey Write AppError Uuid}
    (hok : ∀ id f' s', 3 < id → Later (books config) f s f' s' →
      Progress (books config) f₀ s₀ (accountLocks (walletRow id userId) ++ locks)
        (rows ++ [.insertAccount (walletRow id userId)]) anyReading f' s' →
      (database.applyAll (f₀.view database s') rows).account id = none →
      (database.applyAll (f₀.view database s') rows).accountByKey (walletKey userId) = none →
      Q (.ok id) f' s')
    (herror : ∀ e f' s', Q (.error e) f' s') :
    wp database (books config) (terms config (.register dto)) (createWallet userId) f s Q := by
  refine wp_bind.2 (wp_read fun x => onValue_ok (wp_bind.2 (wp_insertAccount (books_regime config)
    register_guard (fun _ _ => trivial) P (fun f₁ s₁ h₁ P₁ hid hkey _ => onValue_ok (wp_pure ?_))
    fun _ _ _ _ => herror _ _ _)))
  exact hok x.uuid f₁ s₁ (Uuid.isVersion4.gt x.uuid_version4) h₁ P₁ hid hkey

/-- `INSERT INTO refresh_tokens`. -/
theorem wp_insertToken (P : Progress (books config) f₀ s₀ locks rows anyReading f s)
    {t : RefreshToken} {Q : Post Db LockKey Write AppError Unit}
    (hok : ∀ f' s', Later (books config) f s f' s' →
      Progress (books config) f₀ s₀ ((.tokenHash t.tokenHash, .exclusive) ::
        (.token t.id, .exclusive) :: locks) (rows ++ [.insertToken t]) anyReading f' s' →
      Q (.ok ()) f' s')
    (herror : ∀ e f' s', Q (.error e) f' s') :
    wp database (books config) (terms config (.register dto)) (insertToken t) f s Q := by
  have hR := books_regime config
  refine wp_bind.2 (wp_claim hR P (by simp) (fun _ _ => register_guard _ _ _) (fun f₁ s₁ h₁ P₁ _ =>
    onValue_ok ?_) fun _ _ _ _ _ _ => herror _ _ _)
  refine wp_bind.2 (wp_claim hR P₁ (by simp) (fun _ _ => register_guard _ _ _) (fun f₂ s₂ h₂ P₂ _ =>
    onValue_ok ?_) fun _ _ _ _ _ _ => herror _ _ _)
  refine wp_bind.2 (wp_putOther hR P₂ ?_ (by simp) (by simp) fun f₃ s₃ h₃ P₃ => onValue_ok ?_)
  · have hgot := P₂.got
    simp only [List.cons_subset] at hgot
    simp [needs, hgot]
  · exact wp_assertReference hR P₃ (fun f₄ s₄ h₄ P₄ _ =>
      hok f₄ s₄ (((h₁.trans hR.regular h₂).trans hR.regular h₃).trans hR.regular h₄) P₄)
      fun _ _ _ _ _ => herror _ _ _

/-- The keys of a new user and of the wallet are not taken, and nobody else can take them. -/
structure Reserved (u : User) (walletId : Uuid) (f : Standing Db LockKey Write) (s : Db) : Prop where
  userLock : (.user u.id, .exclusive) ∈ f.held
  accountLock : (.account walletId, .exclusive) ∈ f.held
  keyLock : (.accountKey (walletKey u.id), .exclusive) ∈ f.held
  user : s.user u.id = none
  account : s.account walletId = none
  key : s.accountByKey (walletKey u.id) = none

/-- Ids that are locked and free stay free for the session. -/
theorem Reserved.later {u : User} {walletId : Uuid} (h : Reserved u walletId f s)
    (hl : Later (books config) f s f' s') : Reserved u walletId f' s' where
  userLock := hl.kept h.userLock
  accountLock := hl.kept h.accountLock
  keyLock := hl.kept h.keyLock
  user := Eq.trans (hl.rely.same _ h.userLock) h.user
  account := Eq.trans (hl.rely.same _ h.accountLock) h.account
  key := Eq.trans (hl.rely.same _ h.keyLock) h.key

/-- What `register` posts. -/
def grantPostings (walletId : Uuid) (grant : Money) : List Posting :=
  [⟨mintId, grant.negate⟩, ⟨walletId, grant⟩]

/-- The grant goes from MINT to the new wallet. -/
theorem net_grant (walletId : Uuid) (grant : Money) (id : Uuid) :
    net (grantPostings walletId grant) id =
      (if id = walletId then grant.minor else 0) - (if id = mintId then grant.minor else 0) := by
  simp only [grantPostings, net_cons, net_nil, Money.negate_minor, add_zero, eq_comm]
  split_ifs <;> omega

/-- The effect of a registration is enabled wherever its keys are still free. -/
theorem Reserved.enrolls {u : User} {walletId : Uuid} (h : Reserved u walletId f s)
    (hid : 3 < walletId) {p : Posted} {grant : Money} (hgrant : grant.minor = config.signupGrantMinor)
    (hpostings : p.postings = grantPostings walletId grant)
    (hnew : p.New s .SIGNUP_GRANT ⟨"user", u.id⟩) :
    Effect.Enabled config (.enroll u (walletRow walletId u.id) p) s := by
  refine ⟨hid, h.user, h.account, h.key, ⟨rfl, rfl⟩, hnew, fun id => ?_, ?_⟩
  · rw [hpostings, net_grant, hgrant]
    rfl
  · rw [hpostings]
    simp [grantPostings, hgrant]

/-- A new user with a grant and a token may be committed. -/
theorem commits_enroll {e : Effect} {t : RefreshToken} (h : e.Enabled config s)
    (hpending : f.pending = e.rows ++ [.insertToken t]) :
    (terms config (.register dto)).commits s f.pending := by
  refine ⟨[e, .aside (.insertToken t)], ?_, ⟨h, rfl, trivial⟩, trivial⟩
  rw [hpending]
  simp [rowsOf, Effect.rows]

-- the display name is not looked into
attribute [local irreducible] trim

/-- The transaction of `register` commits one user with a wallet and a grant, or nothing. -/
theorem registerTransaction_verified (hs : Consistent config s) (hf : Idle f)
    {passwordHash : String} {grant : Money} (hgrant : grant.minor = config.signupGrantMinor) :
    wp database (books config) (terms config (.register dto))
      (transaction (registerTransaction config crypto dto passwordHash grant)) f s
      fun _ _ _ => True := by
  have hR := books_regime config
  have herror : ∀ (e : AppError) (f' : Standing Db LockKey Write) (s' : Db), ∀ s'',
      Rely (books config) f'.held s' s'' → True := fun _ _ _ _ _ => trivial
  have P₀ : Progress (books config) {} s [] [] anyReading f s := by
    have P := Progress.here hR.regular hs anyReading_all (f := f)
    rwa [hf.held, hf.pending] at P
  refine wp_transaction (wp_bind.2 (wp_read fun x => onValue_ok ?_))
  generalize (User.mk x.uuid (crypto.citext dto.email) (trim dto.displayName) passwordHash "user" "active") = user
  refine wp_bind.2 (wp_insertUser hR register_guard P₀ (fun f₁ s₁ h₁ P₁ huser => onValue_ok ?_)
    fun e f₁ s₁ _ => herror e f₁ s₁)
  refine wp_bind.2 (wp_createWallet P₁ (fun walletId f₂ s₂ hid h₂ P₂ hacc hkey => onValue_ok ?_)
    herror)
  have hreserved : Reserved user walletId f₂ s₂ :=
    { userLock := h₂.kept (P₁.got (List.mem_cons_of_mem _ List.mem_cons_self))
      accountLock := P₂.got (by simp [accountLocks, walletRow])
      keyLock := P₂.got (by simp [accountLocks, walletRow])
      user := Eq.trans (h₂.rely.same _ (P₁.got (List.mem_cons_of_mem _ List.mem_cons_self))) huser
      account := hacc
      key := hkey }
  refine wp_bind.2 (wp_postEnlisted (M := fun _ _ => True) hR (terms_fair config _) P₂.rely.inv
    (fun _ _ _ _ _ _ _ _ _ => register_guard _ _ _) (fun _ _ _ _ _ _ _ _ _ => trivial)
    (fun y p f₃ s₃ htx hpostings hmatch hchecked P₃ => onValue_ok ?_) (fun _ _ _ _ => trivial)
    fun _ _ _ _ _ _ _ _ _ => trivial)
  have P₂₃ := P₂.trans hR.regular P₃
  refine wp_bind.2 (wp_bind.2 (wp_read fun family => onValue_ok ?_))
  refine wp_bind.2 (wp_read fun jti => onValue_ok (wp_bind.2 (wp_read fun z => onValue_ok ?_)))
  refine wp_bind.2 (wp_insertToken P₂₃ (fun f₄ s₄ h₄ P₄ => onValue_ok (wp_pure ?_)) herror)
  refine onValue_ok (wp_bind.2 (wp_read fun _ => onValue_ok (wp_pure ?_)))
  refine fun s₅ h₅ _ => ⟨fun _ => ⟨commits_enroll (e := .enroll user (walletRow walletId user.id) p)
    ?_ P₄.pending, trivial⟩, fun _ _ => trivial⟩
  have h₃₅ : Later (books config) f₃ s₃ f₄ s₅ := h₄.trans hR.regular ⟨h₅, List.Subset.refl _⟩
  refine (hreserved.later (P₃.toLater.trans hR.regular h₃₅)).enrolls hid hgrant hpostings
    ⟨hmatch, ?_, by rw [htx], by rw [htx]⟩
  have hlock : (LockKey.transaction y.uuid, LockMode.exclusive) ∈ f₃.held :=
    P₃.got (List.mem_append_right _ List.mem_cons_self)
  have hsame := hR.same_later h₃₅ hlock {}
  have hfresh := hchecked.fresh
  rw [P₂.view, htx] at hfresh
  rw [htx]
  exact Eq.trans hsame.1 hfresh

/-- `register` keeps the discipline of the books. -/
theorem register_verified (config : Config) (crypto : Crypto) (dto : RegisterDto) (s : Db) :
    wp database (books config) (terms config (.register dto)) (register config crypto dto) {} s
      fun _ _ _ => True := by
  refine wp_bind.2 (wp_select fun s₁ h₁ => onValue_ok ?_)
  cases userByEmail (crypto.citext dto.email) (Standing.view database {} s₁) with
  | some user => trivial
  | none =>
    refine wp_bind.2 (wp_read fun x => onValue_ok (wp_bind.2 (wp_check ?_)))
    cases hgrant : Money.fromMinor config.signupGrantMinor with
    | error e => trivial
    | ok grant =>
      refine onValue_ok (wp_handle.2 (wp_mono (fun r _ _ _ => ?_)
        (registerTransaction_verified h₁.inv ⟨rfl, rfl⟩ (Money.fromMinor_ok hgrant))))
      cases r with
      | ok result => trivial
      | error e =>
        dsimp only
        split <;> trivial

end

end Tessera
