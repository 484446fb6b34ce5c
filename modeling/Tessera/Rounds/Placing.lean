import Tessera.Books.Consistent
import Tessera.Ledger.Rules
import Tessera.Rounds.Service

/-!
# Reasoning about placing a bet

What the transaction of `placeBet` does, under any discipline that keeps the books consistent:
it returns the bet that is already there, it places one, or it fails for one of the listed
reasons.

* `PlaceBetFails` — the reasons;
* `PlaceBetGuards` — what is asked of the terms at each row lock;
* `wp_placeBetTransaction` — the rule.
-/

namespace Tessera

open Relational Transactions Transactions.Program

/-- The bet that `recordBet` inserts. -/
def PlaceBetInput.bet (input : PlaceBetInput) (stake : Money) (priced : PricedSelection)
    (x : Inputs) : Bet where
  id := x.uuid
  userId := input.userId
  roundId := input.roundId
  stakeMinor := stake
  status := .ACTIVE
  settledMultiplierBp := none
  payoutMinor := none
  idempotencyKey := input.idempotencyKey
  createdAt := x.now
  settledAt := none
  selectionType := priced.selectionType
  selectionValue := priced.selectionValue
  oddsBp := priced.oddsBp

/-- The postings of a bet that is placed. -/
def placePostings (walletId : Uuid) (stake : Money) : List Posting :=
  [⟨walletId, stake.negate⟩, ⟨escrowId, stake⟩]

/-- The bet row that passes its constraints, and the odds it is stored with. -/
structure Valid (input : PlaceBetInput) (stake : Money) (r : Round) (priced : PricedSelection)
    (x : Inputs) : Prop where
  price : priceSelection r.game input.selection = .ok priced
  odds : (priced.selectionType.isNone || priced.oddsBp.isSome) = true
  checks : (input.bet stake priced x).violated = none

/-- What `placeBet` holds on to from its balance check on: an open round, and a wallet that
covers the stake. -/
structure Ready (input : PlaceBetInput) (stake : Money) (r : Round) (w : Uuid)
    (f : Standing Db LockKey Write) (s : Db) : Prop where
  roundLock : (.round input.roundId, .share) ∈ f.held
  walletLock : (.balance w, .exclusive) ∈ f.held
  round : s.round input.roundId = some r
  opened : r.status = .OPEN
  wallet : s.walletOf input.userId = some w
  funds : stake.minor ≤ s.balanceOf w
  safe : Js.isSafeInteger (s.balanceOf w) = true

/-- What is true of the committed state when a bet is about to be committed. -/
structure Placing (input : PlaceBetInput) (stake : Money) (r : Round) (w : Uuid)
    (priced : PricedSelection) (x : Inputs) (p : Posted) (s : Db) : Prop where
  valid : Valid input stake r priced x
  round : s.round input.roundId = some r
  wallet : s.walletOf input.userId = some w
  safe : Js.isSafeInteger (s.balanceOf w) = true
  escrow : inBigint (s.balanceOf escrowId + stake.minor) = true
  debit : inBigint (s.balanceOf w - stake.minor) = true
  places : Places (input.bet stake priced x) p s

/-- Why the transaction of `placeBet` fails, a lack of funds apart.  `v` is the committed state
at that moment, and `A` says under which circumstances the last statement ran. -/
inductive PlaceBetFails (A : Statement LockKey → Db → Prop) (input : PlaceBetInput)
    (stake : Money) (v : Db) : AppError → Prop
  | noRound : v.round input.roundId = none →
      PlaceBetFails A input stake v (.roundNotFound input.roundId)
  | notOpen {r : Round} : v.round input.roundId = some r → r.status ≠ .OPEN →
      A (.lock (.round input.roundId) .share) v →
      PlaceBetFails A input stake v (.roundNotOpen r.status)
  | selection {r : Round} {e : AppError} : v.round input.roundId = some r →
      priceSelection r.game input.selection = .error e → PlaceBetFails A input stake v e
  | noWallet : v.walletOf input.userId = none →
      PlaceBetFails A input stake v (.accountNotFound (.inr (walletKey input.userId)))
  | unsafe_ {w : Uuid} : v.walletOf input.userId = some w →
      Js.isSafeInteger (v.balanceOf w) = false →
      PlaceBetFails A input stake v (.unsafeBigint (v.balanceOf w))
  | odds {r : Round} {priced : PricedSelection} : v.round input.roundId = some r →
      priceSelection r.game input.selection = .ok priced →
      (priced.selectionType.isNone || priced.oddsBp.isSome) = false →
      PlaceBetFails A input stake v (.invalidInput "odds_bp")
  | insert {r : Round} {priced : PricedSelection} {x : Inputs} {e : AppError} :
      v.round input.roundId = some r → priceSelection r.game input.selection = .ok priced →
      InsertBetFails (input.bet stake priced x) v e →
      (e = .uniqueViolation "bets_pkey" → A (.lock (.bet x.uuid) .exclusive) v) →
      PlaceBetFails A input stake v e
  | unbalanced {w : Uuid} {kind : TransactionKind} {ref : Option Reference} {e : AppError} :
      assertBalanced ⟨kind, placePostings w stake, ref⟩ = .error e →
      PlaceBetFails A input stake v e
  | post {w : Uuid} {b : Bet} {x : Inputs} {e : AppError} : v.walletOf input.userId = some w →
      stake.minor ≤ v.balanceOf w →
      PostFails (placePostings w stake) x.uuid (v.apply (.insertBet b)) e →
      (e = .uniqueViolation "transactions_pkey" → A (.lock (.transaction x.uuid) .exclusive) v) →
      PlaceBetFails A input stake v e
  | balance {w : Uuid} : v.walletOf input.userId = some w → stake.minor ≤ v.balanceOf w →
      Js.isSafeInteger (v.balanceOf w) = true →
      Js.isSafeInteger (v.balanceOf w - stake.minor) = false →
      PlaceBetFails A input stake v (.unsafeBigint (v.balanceOf w - stake.minor))

/-- What is asked of the terms at each row lock of `placeBet`. -/
structure PlaceBetGuards (T : Terms Db LockKey Write) (input : PlaceBetInput) : Prop where
  held : ∀ f k s, (k, .exclusive) ∈ f.held → T.guard f (k, .exclusive) s
  round : ∀ f s, f.held = [] → T.guard f (.round input.roundId, .share) s
  wallet : ∀ f s w, s.walletOf input.userId = some w →
    (∀ h ∈ f.held, h.1.isRow = true → h.1 = .round input.roundId) →
    T.guard f (.balance w, .exclusive) s
  bet : ∀ f s w id, s.walletOf input.userId = some w →
    (∀ h ∈ f.held, h.1.isRow = true → h.1 = .round input.roundId ∨ h.1 = .balance w) →
    T.guard f (.bet id, .exclusive) s
  escrow : ∀ f s w id, s.walletOf input.userId = some w → s.bet id = none →
    (∀ h ∈ f.held, h.1.isRow = true →
      h.1 = .round input.roundId ∨ h.1 = .balance w ∨ h.1 = .bet id) →
    T.guard f (.balance escrowId, .exclusive) s

/-- What `placeBet` reads under the lock of the wallet. -/
def Covers (userId : Uuid) (stake : ℤ) (id : Uuid) (v : Db) : Prop :=
  v.walletOf userId = some id → stake ≤ v.balanceOf id

/-- The postings of a bet, in the order in which the balances are locked. -/
theorem ordered_place {walletId : Uuid} (h : 3 < walletId) (stake : Money) :
    ordered (placePostings walletId stake) = [⟨escrowId, stake⟩, ⟨walletId, stake.negate⟩] := by
  have hlt : ¬walletId ≤ escrowId := Nat.not_le.2 (Nat.lt_trans (by decide) h)
  simp [ordered, placePostings, hlt]

/-- The postings of a bet one by one: escrow comes first. -/
theorem ordered_place_split {walletId : Uuid} (h : 3 < walletId) {stake : Money}
    {before after : List Posting} {q : Posting}
    (hsplit : ordered (placePostings walletId stake) = before ++ q :: after) :
    (before = [] ∧ q = ⟨escrowId, stake⟩) ∨
      (before = [⟨escrowId, stake⟩] ∧ q = ⟨walletId, stake.negate⟩) := by
  rw [ordered_place h] at hsplit
  rcases before with _ | ⟨q₀, _ | ⟨q₁, before⟩⟩
  · injection hsplit with hq
    exact .inl ⟨rfl, hq.symm⟩
  · simp only [List.cons_append, List.nil_append, List.cons.injEq] at hsplit
    exact .inr ⟨by rw [← hsplit.1], hsplit.2.1.symm⟩
  · simp at hsplit

theorem net_place (walletId : Uuid) (stake : Money) (id : Uuid) :
    net (placePostings walletId stake) id =
      (if id = escrowId then stake.minor else 0) - (if id = walletId then stake.minor else 0) := by
  simp only [placePostings, net_cons, net_nil, add_zero, eq_comm]
  split <;> split <;> simp

section
variable {R : Discipline Db LockKey Write} {T : Terms Db LockKey Write} {config : Config}
variable {f f' f₀ : Standing Db LockKey Write} {s s' s₀ : Db}
variable {input : PlaceBetInput} {stake : Money} {r : Round} {w : Uuid}

/-- The wallet of a user is where it was. -/
theorem Grows.walletOf (h : Grows s s') {userId : Uuid} (hw : s.walletOf userId = some w) :
    s'.walletOf userId = some w := by
  obtain ⟨a, ha, rfl⟩ := Db.walletOf_eq_some.1 hw
  exact Db.walletOf_eq_some.2 ⟨a, h.accountByKey ha, rfl⟩

theorem Ready.later (hR : Regime R) (h : Ready input stake r w f s) (hl : Later R f s f' s') :
    Ready input stake r w f' s' := by
  have hround := hR.same_later hl h.roundLock {}
  have hwallet := hR.same_later hl h.walletLock {}
  have hbalance : s'.balanceOf w = s.balanceOf w := congrArg (fun o : Option Balance =>
    (o.map Balance.balance).getD 0) hwallet.1
  exact
    { roundLock := hl.kept h.roundLock
      walletLock := hl.kept h.walletLock
      round := hround.1.trans h.round
      opened := h.opened
      wallet := (hR.grows hl.rely.grows).walletOf h.wallet
      funds := hbalance ▸ h.funds
      safe := hbalance ▸ h.safe }

/-- What the checks of the bet row and of the posting say, once both are written. -/
theorem placing_of_checked (hR : Regime R) {priced : PricedSelection} {x : Inputs} {p : Posted}
    {f₁ f₂ f₃ : Standing Db LockKey Write} {s₁ s₂ s₃ : Db} {M M' : Uuid → Db → Prop}
    {y : Uuid}
    (hready : Ready input stake r w f s)
    (hprice : priceSelection r.game input.selection = .ok priced)
    (hodds : (priced.selectionType.isNone || priced.oddsBp.isSome) = true)
    (hpos : 0 < stake.minor) (hview : ∀ s', f.view database s' = s')
    (P₁ : Progress R f s (betLocks (input.bet stake priced x))
      [.insertBet (input.bet stake priced x)] (underLock M) f₁ s₁)
    (hinserted : BetInserted (input.bet stake priced x) (f.view database s₁)) (hw3 : 3 < w)
    (htx : p.transaction = ⟨y, .BET_PLACED, some ⟨"bet", (input.bet stake priced x).id⟩⟩)
    (hpostings : p.postings = placePostings w stake) (hmatch : p.Matches)
    (hchecked : PostChecked p (f₁.view database s₂))
    (P₂ : Progress R f₁ s₁ (postLocks y (ordered (placePostings w stake))) p.rows (underLock M')
      f₂ s₂) (hl : Later R f₂ s₂ f₃ s₃) :
    Placing input stake r w priced x p s₃ := by
  have hview₁ : ∀ s', f₁.view database s' = s'.apply (.insertBet (input.bet stake priced x)) :=
    fun s' => by
      rw [P₁.view, hview]
      rfl
  have h₁₃ := P₂.toLater.trans hR.regular hl
  have hready₃ := hready.later hR (P₁.toLater.trans hR.regular h₁₃)
  rw [ordered_place hw3] at P₂
  have hescrow := hR.same_later hl (P₂.got (by simp [postLocks]) :
    (LockKey.balance escrowId, LockMode.exclusive) ∈ f₂.held) {}
  have hwallet := hR.same_later hl (P₂.got (by simp [postLocks]) :
    (LockKey.balance w, LockMode.exclusive) ∈ f₂.held) {}
  have htxLock := hR.same_later hl (P₂.got (by simp [postLocks]) :
    (LockKey.transaction y, LockMode.exclusive) ∈ f₂.held) {}
  have hkey : _ = _ := hR.same_later h₁₃ (P₁.got List.mem_cons_self) {}
  have hid : _ = _ := hR.same_later h₁₃ (P₁.got (List.mem_cons_of_mem _ List.mem_cons_self)) {}
  have hsplit : ordered p.postings = [⟨escrowId, stake⟩, ⟨w, stake.negate⟩] := by
    rw [hpostings, ordered_place hw3]
  have hne : escrowId ≠ w := (Nat.lt_trans (by decide : escrowId < 3) hw3).ne
  have hbalance : ∀ {id}, s₃.balance id = s₂.balance id →
      (f₁.view database s₂).balanceOf id = s₃.balanceOf id := fun h => by
    rw [hview₁]
    change s₂.balanceOf _ = _
    unfold Db.balanceOf
    rw [h]
  have hinserted' := hinserted
  rw [hview] at hinserted'
  refine
    { valid := ⟨hprice, hodds, hinserted.checks⟩
      round := hready₃.round
      wallet := hready₃.wallet
      safe := hready₃.safe
      escrow := ?_
      debit := ?_
      places :=
        { id := hid.trans hinserted'.id
          key := hkey.trans hinserted'.key
          active := rfl
          payout := rfl
          stake := hpos
          user := ?_
          round := ⟨r, hready₃.round, hready₃.opened⟩
          wallet := ⟨w, hready₃.wallet, hready₃.funds, fun id => hpostings ▸ net_place w stake id⟩
          posted := ⟨hmatch, ?_, by rw [htx], by rw [htx]⟩ } }
  · have hrange := hchecked.range [] ⟨escrowId, stake⟩ [⟨w, stake.negate⟩] hsplit
    rwa [net_nil, add_zero, hbalance hescrow.1] at hrange
  · have hrange := hchecked.range [⟨escrowId, stake⟩] ⟨w, stake.negate⟩ [] hsplit
    rwa [net_cons, if_neg hne, net_nil, add_zero, add_zero, hbalance hwallet.1] at hrange
  · exact (hR.grows h₁₃.rely.grows).user_view {} hinserted'.user
  · have hfresh := hchecked.fresh
    rw [hview₁, htx] at hfresh
    rw [htx]
    exact htxLock.1.trans hfresh

/-- What is read of the wallet under its lock: the stake is covered before and after the debit of
escrow. -/
theorem Ready.covers (h : Ready input stake r w f s) (hw3 : 3 < w) {before after : List Posting}
    {q : Posting} (hsplit : ordered (placePostings w stake) = before ++ q :: after) {v : Db}
    (haccounts : v.accounts = s.accounts)
    (hbalance : v.balanceOf q.accountId = s.balanceOf q.accountId + net before q.accountId) :
    Covers input.userId stake.minor q.accountId v := by
  intro hwallet
  have hq : w = q.accountId := by
    have hv : v.walletOf input.userId = s.walletOf input.userId := by
      unfold Db.walletOf Db.accountByKey
      rw [haccounts]
    rw [hv, h.wallet] at hwallet
    exact Option.some.inj hwallet
  have hne : escrowId ≠ w := (Nat.lt_trans (by decide : escrowId < 3) hw3).ne
  have hbefore : net before w = 0 := by
    rcases ordered_place_split hw3 hsplit with ⟨rfl, -⟩ | ⟨rfl, -⟩
    · rfl
    · rw [net_cons, if_neg hne]
      rfl
  rw [← hq] at hbalance ⊢
  rw [hbalance, hbefore, add_zero]
  exact h.funds

/-- Escrow is locked with the round, the wallet and the bet at most; the wallet already is. -/
theorem PlaceBetGuards.posting (hG : PlaceBetGuards T input) (h : Ready input stake r w f s)
    (hw3 : 3 < w) {id : Uuid} (hid : s.bet id = none) {before after : List Posting} {q : Posting}
    (hsplit : ordered (placePostings w stake) = before ++ q :: after)
    (hrows : ∀ l ∈ f.held, l.1.isRow = true →
      (l.1 = .round input.roundId ∨ l.1 = .balance w ∨ l.1 = .bet id) ∨
        ∃ q ∈ before, l = (.balance q.accountId, .exclusive)) :
    T.guard f (.balance q.accountId, .exclusive) s := by
  rcases ordered_place_split hw3 hsplit with ⟨rfl, rfl⟩ | ⟨-, rfl⟩
  · refine hG.escrow f s w id h.wallet hid fun l hl hrow => ?_
    rcases hrows l hl hrow with hl | ⟨q, hq, -⟩
    · exact hl
    · cases hq
  · exact hG.held f _ s h.walletLock

/-- The notifications of a bet that has been placed. -/
theorem wp_announceBet (hR : Regime R) {locks : List (LockKey × LockMode)} {rows : List Write}
    {M : Uuid → Db → Prop} (P : Progress R f₀ s₀ locks rows (underLock M) f s) {b : Bet}
    {game : GameKind} {Q : Post Db LockKey Write AppError BetView}
    (hok : ∀ e₁ e₂ f' s', Later R f s f' s' →
      Progress R f₀ s₀ locks (rows ++ [.notify e₁] ++ [.notify e₂]) (underLock M) f' s' →
      Q (.ok (toBetView b game)) f' s')
    (hbeyond : ∀ n f' s', Later R f s f' s' →
      Progress R f₀ s₀ locks rows (underLock M) f' s' →
      n = (database.applyAll (f₀.view database s') rows).balanceOf w →
      Js.isSafeInteger n = false → Q (.error (.unsafeBigint n)) f' s') :
    wp database R T (do
      let displayName ← select (displayNameOf input.userId)
      let balance ← getBalance w
      publish (.betPlaced input.roundId game b.id displayName b.stakeMinor.minor input.selection)
      publish (.walletUpdated input.userId balance.minor)
      pure (toBetView b game)) f s Q := by
  refine wp_bind.2 (wp_selectAt hR P fun f₁ s₁ h₁ P₁ => ?_)
  refine onValue_ok (wp_bind.2 (wp_getBalance hR P₁ (fun money f₂ s₂ h₂ P₂ => ?_)
    fun n f₂ s₂ h₂ P₂ hn => hbeyond n f₂ s₂ (h₁.trans hR.regular h₂) P₂ hn))
  refine onValue_ok (wp_bind.2 (wp_putOther hR P₂ (by simp [needs]) (by simp) (by simp)
    fun f₃ s₃ h₃ P₃ => ?_))
  refine onValue_ok (wp_bind.2 (wp_putOther hR P₃ (by simp [needs]) (by simp) (by simp)
    fun f₄ s₄ h₄ P₄ => ?_))
  exact onValue_ok (hok _ _ f₄ s₄
    ((h₁.trans hR.regular h₂).trans hR.regular (h₃.trans hR.regular h₄)) P₄)

/-- The bet row, the postings and the notifications. -/
theorem wp_recordBet (hR : Regime R) (hT : Fair T)
    (hC : ∀ s, R.inv s → Consistent config s) (hG : PlaceBetGuards T input)
    (hinv : R.inv s) (hpos : 0 < stake.minor) {priced : PricedSelection}
    (hready : Ready input stake r w f s) (hpending : f.pending = [])
    (hrows : ∀ h ∈ f.held, h.1.isRow = true → h.1 = .round input.roundId ∨ h.1 = .balance w)
    (hprice : priceSelection r.game input.selection = .ok priced)
    {Q : Post Db LockKey Write AppError BetView}
    (hok : ∀ locks f' s' x p e₁ e₂,
      Progress R f s locks (rowsOf [.place (input.bet stake priced x) p, .aside (.notify e₁),
        .aside (.notify e₂)]) (underLock (Covers input.userId stake.minor)) f' s' →
      (∀ s'', Rely R f'.held s' s'' → Placing input stake r w priced x p s'') →
      Q (.ok (toBetView (input.bet stake priced x) r.game)) f' s')
    (herror : ∀ e f' s',
      Aborted R f s (underLock (Covers input.userId stake.minor)) f' s' →
      PlaceBetFails (fun st v => ∃ f, T.admits f st v) input stake s' e → Q (.error e) f' s') :
    wp database R T (recordBet input stake r.game priced w) f s Q := by
  have hview : ∀ s', f.view database s' = s' := fun s' => by
    unfold Standing.view
    rw [hpending]
    rfl
  have P₀ : Progress R f s [] [] (underLock (Covers input.userId stake.minor)) f s :=
    .refl hR.regular hinv _
  let M := Covers input.userId stake.minor
  unfold recordBet
  refine wp_bind.2 (wp_read fun x => onValue_ok ?_)
  let b := input.bet stake priced x
  refine wp_bind.2 (wp_ensure (fun hodds => ?_) fun hodds => ?_)
  case refine_2 => exact herror _ f s P₀.aborted (.odds hready.round hprice hodds)
  refine onValue_ok (wp_bind.2 (wp_insertBet hR hT hinv (M := M) (b := b)
    hready.roundLock (fun s₁ h₁ => ?_) (fun f₁ s₁ P₁ hinserted => ?_)
    fun e f₁ s₁ hab hfails hadmits => ?_))
  · have hready₁ := hready.later hR ⟨h₁, List.Subset.refl _⟩
    exact hG.bet f s₁ w _ hready₁.wallet hrows
  case refine_3 =>
    have hready₁ := hready.later hR hab.toLater
    rw [hview] at hfails
    exact herror e f₁ s₁ hab (.insert hready₁.round hprice hfails fun he => ⟨f, hadmits he⟩)
  -- the view now holds the bet, and is the committed state otherwise
  have hview₁ : ∀ s', f₁.view database s' = s'.apply (.insertBet b) := fun s' => by
    rw [P₁.view, hview]
    rfl
  have hready₁ := hready.later hR P₁.toLater
  have hgt : ∀ s', R.inv s' → s'.walletOf input.userId = some w → 3 < w := fun s' hi hw =>
    (hC s' hi).housed.wallet_gt hw
  have hw3 : 3 < w := hgt s₁ P₁.rely.inv hready₁.wallet
  have hbid : ∀ {f₂ s₂}, Later R f₁ s₁ f₂ s₂ → s₂.bet b.id = none := fun hl => by
    have hsame : _ = _ := hR.same_later hl (P₁.got (List.mem_cons_of_mem _ List.mem_cons_self)) {}
    have hid := hinserted.id
    rw [hview] at hid
    exact hsame.trans hid
  refine onValue_ok (wp_bind.2 (wp_postEnlisted hR hT P₁.rely.inv (M := M) ?_ ?_
    (fun y p f₂ s₂ htx hpostings hmatch hchecked P₂ => ?_)
    (fun e hbal => herror e f₁ s₁ P₁.aborted (.unbalanced hbal))
    fun y e f₂ s₂ hab hfails hadmits => ?_))
  · intro before q after hsplit f₂ s₂ hl hgot honly
    refine hG.posting (hready₁.later hR hl) hw3 (hbid hl) hsplit fun h hh hrow => ?_
    refine (honly h hh hrow).imp_left fun hh => ?_
    rcases List.mem_append.1 (P₁.only hh) with hh | hh
    · rcases List.mem_cons.1 hh with rfl | hh
      · cases hrow
      · exact .inr (.inr (by rw [List.mem_singleton.1 hh]))
    · exact (hrows h hh hrow).imp_right .inl
  · intro before q after hsplit s₂ v hs₂ haccounts hbalance
    have hl : Later R f₁ s₁ f₁ s₂ := ⟨hs₂, List.Subset.refl _⟩
    rw [hview₁] at haccounts hbalance
    exact (hready₁.later hR hl).covers hw3 hsplit haccounts hbalance
  case refine_4 =>
    have hready₂ := hready₁.later hR hab.toLater
    rw [hview₁] at hfails
    exact herror e f₂ s₂ (P₁.abort hR.regular hab)
      (.post hready₂.wallet hready₂.funds hfails fun he => ⟨f₁, hadmits he⟩)
  have hplacing : ∀ {f₃ s₃}, Later R f₂ s₂ f₃ s₃ → Placing input stake r w priced x p s₃ :=
    fun hl => placing_of_checked hR hready hprice hodds hpos hview P₁ hinserted hw3 htx
      hpostings hmatch hchecked P₂ hl
  have P₂' := P₁.trans hR.regular P₂
  refine onValue_ok (wp_announceBet hR P₂' (fun e₁ e₂ f₃ s₃ h₃ P₃ => ?_)
    fun n f₃ s₃ h₃ P₃ hn hbeyond => ?_)
  · refine hok _ f₃ s₃ x p e₁ e₂ (by simpa [rowsOf, Effect.rows] using P₃) fun s₄ h₄ => ?_
    exact hplacing (h₃.wait hR.regular h₄)
  · have hready₃ := hready₁.later hR (P₂.toLater.trans hR.regular h₃)
    have hdebit : n = s₃.balanceOf w - stake.minor := by
      have hnet : net p.postings w = -stake.minor := by
        rw [hpostings]
        refine (net_place w stake w).trans ?_
        rw [if_neg (Nat.lt_trans (by decide : escrowId < 3) hw3).ne', if_pos rfl]
        ring
      rw [hn, hview, Database.applyAll_append, applyAll_posted, Db.posted_balanceOf, hnet]
      · change s₃.balanceOf w + _ = _
        ring
      · exact (hC s₃ h₃.rely.inv).keyed.wallet_row hready₃.wallet
    rw [hdebit] at hbeyond ⊢
    exact herror _ f₃ s₃ P₃.aborted (.balance hready₃.wallet hready₃.funds hready₃.safe hbeyond)

/-- The read under the lock of the wallet covers the stake. -/
theorem underLock_covers (userId : Uuid) (h : stake.minor ≤ s.balanceOf w) :
    underLock (Covers userId stake.minor) ⟨some (.balance w), s⟩ := by
  intro id hid
  obtain rfl : w = id := by simpa using hid
  exact fun _ => h

/-- A wallet that is beyond the safe integers holds more than any stake. -/
theorem Consistent.covers_beyond (h : Consistent config s) {userId : Uuid}
    (hw : s.walletOf userId = some w) (hbeyond : Js.isSafeInteger (s.balanceOf w) = false)
    (stake : Money) : stake.minor ≤ s.balanceOf w := by
  obtain ⟨a, ha, rfl⟩ := Db.walletOf_eq_some.1 hw
  have hnonneg : 0 ≤ s.balanceOf a.id := by
    refine h.tidy a.id a (h.keyed.wallet_account ha) ?_
    rw [h.housed.wallet_kind ha]
    rfl
  have hsafe := Js.isSafeInteger_iff.1 stake.safe
  have hbeyond' : ¬(-Js.maxSafeInteger ≤ s.balanceOf a.id ∧
      s.balanceOf a.id ≤ Js.maxSafeInteger) := fun h =>
    absurd (Js.isSafeInteger_iff.2 h) (by rw [hbeyond]; decide)
  omega

/-- The part of `placeBet` that follows the lookup of the wallet: the balance is locked and
compared with the stake, and the bet is recorded. -/
theorem wp_stakeBet (hR : Regime R) (hT : Fair T) (hC : ∀ s, R.inv s → Consistent config s)
    (hG : PlaceBetGuards T input) (hpos : 0 < stake.minor) (hpending : f₀.pending = [])
    (P : Progress R f₀ s₀ [(.round input.roundId, .share)] []
      (underLock (Covers input.userId stake.minor)) f s)
    (hrows : ∀ h ∈ f.held, h.1.isRow = true → h.1 = .round input.roundId)
    (hround : s.round input.roundId = some r) (hopen : r.status = .OPEN)
    (hw : s.walletOf input.userId = some w) {priced : PricedSelection}
    (hprice : priceSelection r.game input.selection = .ok priced)
    {Q : Post Db LockKey Write AppError BetView}
    (hok : ∀ locks f' s' x p e₁ e₂,
      Progress R f₀ s₀ locks (rowsOf [.place (input.bet stake priced x) p, .aside (.notify e₁),
        .aside (.notify e₂)]) (underLock (Covers input.userId stake.minor)) f' s' →
      (∀ s'', Rely R f'.held s' s'' → Placing input stake r w priced x p s'') →
      Q (.ok (toBetView (input.bet stake priced x) r.game)) f' s')
    (hshort : ∀ f' s', Later R f s f' s' → s'.walletOf input.userId = some w →
      s'.balanceOf w < stake.minor → ⟨some (.balance w), s'⟩ ∈ f'.log →
      (∃ f, T.admits f (.lock (.balance w) .exclusive) s') →
      Q (.error (.insufficientFunds (s'.balanceOf w) stake.minor)) f' s')
    (herror : ∀ e f' s',
      Aborted R f₀ s₀ (underLock (Covers input.userId stake.minor)) f' s' →
      PlaceBetFails (fun st v => ∃ f, T.admits f st v) input stake s' e → Q (.error e) f' s') :
    wp database R T (do
      let _ ← lockAndAssertSufficient w stake
      recordBet input stake r.game priced w) f s Q := by
  have hview : ∀ s', f.view database s' = s' := fun s' => by
    rw [P.view]
    unfold Standing.view
    rw [hpending]
    rfl
  have hwallet : ∀ {s'}, Rely R f.held s s' → s'.walletOf input.userId = some w :=
    fun h => (hR.grows h.grows).walletOf hw
  refine wp_bind.2 (wp_lockAndAssertSufficient hR (fun s' hs' => ?_)
    (fun v s' hs' => ?_) (fun v s₁ money hs₁ _ hmoney hfunds => ?_)
    (fun v s₁ hs₁ hadmits hlt => ?_) fun v s₁ hs₁ hbeyond => ?_)
  · rw [hview]
    exact (hC s' hs'.inv).keyed.wallet_row (hwallet hs')
  · exact hG.wallet _ s' w (hwallet hs') hrows
  · rw [hview] at hmoney ⊢
    rw [hmoney] at hfunds
    have P₁ := ((P.wait hR.regular hs₁).saw v).locked (m := .exclusive)
      (underLock_covers input.userId hfunds)
    have hlater : Later R f s ((f.saw v).locked (.balance w) .exclusive s₁) s₁ :=
      ⟨hs₁, List.subset_cons_self _ _⟩
    have hroundLock : (LockKey.round input.roundId, LockMode.share) ∈ f.held :=
      P.got List.mem_cons_self
    have hready : Ready input stake r w ((f.saw v).locked (.balance w) .exclusive s₁) s₁ :=
      { roundLock := hlater.kept hroundLock
        walletLock := List.mem_cons_self
        round := (hR.same_later hlater hroundLock {}).1.trans hround
        opened := hopen
        wallet := hwallet hs₁
        funds := hfunds
        safe := hmoney ▸ money.safe }
    refine onValue_ok (wp_recordBet hR hT hC hG hs₁.inv hpos hready
      (P₁.pending.trans (by rw [hpending]; rfl)) (fun h hh hrow => ?_) hprice
      (fun locks f₂ s₂ x p e₁ e₂ P₂ hplacing => ?_) fun e f₂ s₂ hab hfails => ?_)
    · rcases List.mem_cons.1 hh with rfl | hh
      · exact .inr rfl
      · exact .inl (hrows h hh hrow)
    · exact hok _ f₂ s₂ x p e₁ e₂ (P₁.trans hR.regular P₂) hplacing
    · exact herror e f₂ s₂ (P₁.abort hR.regular hab) hfails
  · rw [hview] at hlt ⊢
    exact hshort _ s₁ ⟨hs₁, List.subset_cons_self _ _⟩ (hwallet hs₁) hlt
      (by simp [Standing.locked]) ⟨_, hadmits⟩
  · rw [hview] at hbeyond ⊢
    have hcovers := (hC s₁ hs₁.inv).covers_beyond (hwallet hs₁) hbeyond stake
    have P₁ := ((P.wait hR.regular hs₁).saw v).locked (m := .exclusive)
      (underLock_covers input.userId hcovers)
    exact herror _ _ s₁ P₁.aborted (.unsafe_ (hwallet hs₁) hbeyond)

/-- The transaction of `placeBet`. -/
theorem wp_placeBetTransaction (hR : Regime R) (hT : Fair T)
    (hC : ∀ s, R.inv s → Consistent config s) (hG : PlaceBetGuards T input)
    (hinv : R.inv s) (hpos : 0 < stake.minor) (hheld : f.held = []) (hpending : f.pending = [])
    {Q : Post Db LockKey Write AppError BetView}
    (hreplay : ∀ f' s' b,
      Progress R f s [] [] (underLock (Covers input.userId stake.minor)) f' s' →
      findByIdempotencyKey input.userId input.idempotencyKey s' = some b →
      Q (.ok (toBetView b)) f' s')
    (hok : ∀ locks f' s' r w priced x p e₁ e₂,
      Progress R f s locks (rowsOf [.place (input.bet stake priced x) p, .aside (.notify e₁),
        .aside (.notify e₂)]) (underLock (Covers input.userId stake.minor)) f' s' →
      (∀ s'', Rely R f'.held s' s'' → Placing input stake r w priced x p s'') →
      Q (.ok (toBetView (input.bet stake priced x) r.game)) f' s')
    (hshort : ∀ f' s' w, Later R f s f' s' → s'.walletOf input.userId = some w →
      s'.balanceOf w < stake.minor → ⟨some (.balance w), s'⟩ ∈ f'.log →
      (∃ f, T.admits f (.lock (.balance w) .exclusive) s') →
      Q (.error (.insufficientFunds (s'.balanceOf w) stake.minor)) f' s')
    (herror : ∀ e f' s',
      Aborted R f s (underLock (Covers input.userId stake.minor)) f' s' →
      PlaceBetFails (fun st v => ∃ f, T.admits f st v) input stake s' e → Q (.error e) f' s') :
    wp database R T (placeBetTransaction input stake) f s Q := by
  let M := Covers input.userId stake.minor
  have hview : ∀ s', f.view database s' = s' := fun s' => by
    unfold Standing.view
    rw [hpending]
    rfl
  have P₀ : Progress R f s [] [] (underLock M) f s := .refl hR.regular hinv _
  unfold placeBetTransaction
  refine wp_bind.2 (wp_selectAt hR P₀ fun f₁ s₁ h₁ P₁ => ?_)
  rw [hview]
  cases hfind : findByIdempotencyKey input.userId input.idempotencyKey s₁ with
  | some b =>
    refine onValue_ok ?_
    simp only [Database.applyAll_nil, hfind]
    exact hreplay f₁ s₁ b P₁ hfind
  | none =>
  refine onValue_ok ?_
  simp only [Database.applyAll_nil, hfind]
  have hheld₁ : f₁.held = [] := by
    have honly := P₁.only
    rw [hheld] at honly
    exact List.subset_nil.1 honly
  refine wp_bind.2 (wp_selectForLockAt hR P₁ (fun f₂ s₂ h₂ P₂ hnone => ?_)
    (fun f₂ s₂ row s₃ h₂ hheld₂ hrow h₃ => ?_) (fun s₂ row s₃ _ hrow _ => ?_)
    fun f₂ s₂ row f₃ s₃ h₂ hrow h₃ hadmits P₃ => ?_)
  · rw [hview] at hnone
    exact onValue_ok (herror _ f₂ s₂ P₂.aborted (.noRound hnone))
  · rw [show row.id = input.roundId from lookup_key hrow]
    exact hG.round f₂ s₃ (hheld₂.trans hheld₁)
  · exact underLock_other M _ (k := .round row.id) (by simp)
  rw [hview] at hrow
  rw [hview]
  have hid : row.id = input.roundId := lookup_key hrow
  rw [hid] at P₃ hadmits
  simp only [Database.applyAll_nil] at hrow ⊢
  cases hround : s₃.round input.roundId with
  | none => exact onValue_ok (herror _ f₃ s₃ P₃.aborted (.noRound hround))
  | some r =>
  refine onValue_ok ?_
  dsimp only
  split
  case isTrue hopen => exact herror _ f₃ s₃ P₃.aborted (.notOpen hround hopen ⟨f₂, hadmits⟩)
  case isFalse hopen =>
  refine wp_bind.2 (wp_check ?_)
  cases hprice : priceSelection r.game input.selection with
  | error e => exact herror e f₃ s₃ P₃.aborted (.selection hround hprice)
  | ok priced =>
  refine onValue_ok (wp_bind.2 (wp_getWalletAccountId hR P₃ (fun a f₄ s₄ h₄ P₄ ha => ?_)
    fun f₄ s₄ P₄ hmissing => ?_))
  case refine_2 =>
    rw [hview] at hmissing
    refine herror _ f₄ s₄ P₄.aborted (.noWallet ?_)
    unfold Db.walletOf
    rw [show s₄.accountByKey (walletKey input.userId) = none from hmissing]
    rfl
  rw [hview] at ha
  have hw : s₄.walletOf input.userId = some a.id := Db.walletOf_eq_some.2 ⟨a, ha, rfl⟩
  have hrows₄ : ∀ h ∈ f₄.held, h.1.isRow = true → h.1 = .round input.roundId := by
    intro h hh _
    have hmem := P₄.only hh
    rw [hheld, List.append_nil] at hmem
    rw [List.mem_singleton.1 hmem]
  have hround₄ : s₄.round input.roundId = some r :=
    (hR.same_later h₄ (P₃.got List.mem_cons_self) {}).1.trans hround
  refine onValue_ok (wp_stakeBet hR hT hC hG hpos hpending P₄ hrows₄ hround₄ (by simpa using hopen)
    hw hprice (fun locks f₅ s₅ => hok locks f₅ s₅ r a.id priced) (fun f₅ s₅ hl => ?_) herror)
  exact hshort f₅ s₅ a.id (P₄.toLater.trans hR.regular hl)

end

end Tessera
