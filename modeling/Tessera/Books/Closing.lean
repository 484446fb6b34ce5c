import Tessera.Books.Placing

/-!
# Closing a bet keeps the terms

A bet is closed by an update of its row and a posting that starts at escrow; `cashOut`,
`settleRound` and `voidRound` differ in which bets they close and where the stake goes.

* `Working` — where a transaction stands that closes bets, and the rules for its reads;
* `wp_updateActiveBet`, `wp_closePost` — the two halves of closing a bet;
* `wp_publishBetOutcome` — telling everyone about it.
-/

namespace Tessera

open Relational Transactions Transactions.Program

/-- Nothing is recorded about the balances that are read. -/
abbrev anyReading : Reading Db LockKey → Prop := underLock fun _ _ => True

/-- Nothing is asked of what is read. -/
theorem anyReading_all (e : Reading Db LockKey) : anyReading e := fun _ _ => trivial

/-- Escrow is the first of the balances to be locked. -/
def EscrowFirst (held : List (LockKey × LockMode)) : Prop :=
  (.balance escrowId, .exclusive) ∈ held ∨
    ∀ h ∈ held, h.1.isRow = true → (∃ id, h.1 = .round id) ∨ ∃ id, h.1 = .bet id

/-- The lock of a round or of a bet comes before escrow. -/
theorem EscrowFirst.cons {held : List (LockKey × LockMode)} (h : EscrowFirst held)
    {k : LockKey} (hk : (∃ id, k = .round id) ∨ ∃ id, k = .bet id) (m : LockMode) :
    EscrowFirst ((k, m) :: held) := by
  refine h.imp (List.mem_cons_of_mem _) fun hrows k' hk' hrow => ?_
  rcases List.mem_cons.1 hk' with rfl | hk'
  · exact hk
  · exact hrows k' hk' hrow

/-- A posting that starts at escrow locks escrow first. -/
theorem ordered_escrow {amount : Money} {rest : List Posting}
    (h : ∀ p ∈ rest, escrowId ≤ p.accountId) :
    ordered (⟨escrowId, amount⟩ :: rest) = ⟨escrowId, amount⟩ :: ordered rest := by
  have hsorted : ∀ l : List Posting, (∀ p ∈ l, escrowId ≤ p.accountId) →
      l.orderedInsert (fun a b => a.accountId ≤ b.accountId) ⟨escrowId, amount⟩ =
        ⟨escrowId, amount⟩ :: l := by
    intro l hl
    cases l with
    | nil => rfl
    | cons p l => exact List.orderedInsert_cons_of_le _ l (hl p List.mem_cons_self)
  exact hsorted (ordered rest) fun p hp => h p (mem_ordered.1 hp)

/-- Such a posting leg by leg. -/
theorem ordered_escrow_split {amount : Money} {rest before after : List Posting} {q : Posting}
    (h : ∀ p ∈ rest, escrowId ≤ p.accountId)
    (hsplit : ordered (⟨escrowId, amount⟩ :: rest) = before ++ q :: after) :
    (before = [] ∧ q = ⟨escrowId, amount⟩) ∨
      ∃ done, before = ⟨escrowId, amount⟩ :: done ∧ q ∈ rest ∧ ∀ p ∈ done, p ∈ rest := by
  rw [ordered_escrow h] at hsplit
  rcases before with _ | ⟨q₀, done⟩
  · injection hsplit with hq
    exact .inl ⟨rfl, hq.symm⟩
  · simp only [List.cons_append, List.cons.injEq] at hsplit
    obtain ⟨rfl, hsplit⟩ := hsplit
    have hmem : ∀ p ∈ done ++ q :: after, p ∈ rest := fun p hp => mem_ordered.1 (hsplit ▸ hp)
    exact .inr ⟨done, rfl, hmem q (by simp), fun p hp => hmem p (List.mem_append_left _ hp)⟩

/-- The legs after escrow credit the wallet or move the house, so no leg overdraws an account
that must not be overdrawn. -/
theorem Consistent.closing_nonneg {config : Config} {v : Db} (h : Consistent config v) {b : Bet}
    (hbet : v.bet b.id = some b) (hactive : b.status = .ACTIVE) {w : Uuid} (hw : 3 < w)
    {rest before after : List Posting} {q : Posting}
    (hrest : ∀ p ∈ rest, p.accountId = houseId ∨ (p.accountId = w ∧ 0 ≤ p.amount.minor))
    (hsplit : ordered (⟨escrowId, b.stakeMinor.negate⟩ :: rest) = before ++ q :: after)
    {a : Account} (ha : v.account q.accountId = some a) (hprotected : a.kind.neverNegative = true) :
    0 ≤ v.balanceOf q.accountId + net before q.accountId + q.amount.minor := by
  have hlt : escrowId < w := Nat.lt_trans (by decide : escrowId < 3) hw
  have hge : ∀ p ∈ rest, escrowId ≤ p.accountId := fun p hp => by
    rcases hrest p hp with hhouse | ⟨hwallet, -⟩
    · rw [hhouse]
      decide
    · rw [hwallet]
      exact hlt.le
  have hnonneg : 0 ≤ v.balanceOf q.accountId := h.tidy _ a ha hprotected
  rcases ordered_escrow_split hge hsplit with ⟨rfl, rfl⟩ | ⟨done, rfl, hq, hdone⟩
  · have hle := h.stake_le_escrow hbet hactive
    change 0 ≤ v.balanceOf escrowId + net [] escrowId + b.stakeMinor.negate.minor
    rw [net_nil, Money.negate_minor]
    omega
  · rcases hrest q hq with hhouse | ⟨hwallet, hamount⟩
    · rw [hhouse] at ha
      rw [h.housed.house_kind ha] at hprotected
      cases hprotected
    · have hbefore : 0 ≤ net done q.accountId := net_nonneg fun p hp hid => by
        rcases hrest p (hdone p hp) with hhouse | ⟨-, hpos⟩
        · rw [hhouse, hwallet] at hid
          exact absurd (hid ▸ hw) (by decide)
        · exact hpos
      rw [net_cons, if_neg (hwallet ▸ hlt.ne), zero_add]
      exact add_nonneg (add_nonneg hnonneg hbefore) hamount

/-! ## Where a transaction stands -/

/-- A transaction that closes bets has made the writes of some effects, and then some more; the
effects stay enabled whatever the others do. -/
structure Working (config : Config) (es : List Effect) (more : List Write)
    (f : Standing Db LockKey Write) (s : Db) : Prop where
  inv : Consistent config s
  pending : f.pending = rowsOf es ++ more
  done : Always (books config) f.held s fun s' => Done config s' es
  order : EscrowFirst f.held

section
variable {config : Config} {c : Call} {f f' : Standing Db LockKey Write} {s s' : Db}
variable {es : List Effect} {more : List Write}

namespace Working

/-- What the session sees is what its writes have made of the committed state. -/
theorem view (W : Working config es more f s) (s' : Db) :
    f.view database s' = database.applyAll (database.applyAll s' (rowsOf es)) more := by
  unfold Standing.view
  rw [W.pending, Database.applyAll_append]

/-- The others have moved on. -/
theorem wait (W : Working config es more f s) (h : Rely (books config) f.held s s') :
    Working config es more f s' where
  inv := h.inv
  pending := W.pending
  done := W.done.wait (books_regular config) h
  order := W.order

/-- One more plain read. -/
theorem saw (W : Working config es more f s) (v : Db) : Working config es more (f.saw v) s :=
  ⟨W.inv, W.pending, W.done, W.order⟩

/-- One more lock, on a round or a bet. -/
theorem locked (W : Working config es more f s) {k : LockKey}
    (hk : (∃ id, k = .round id) ∨ ∃ id, k = .bet id) (v : Db) :
    Working config es more (f.locked k .exclusive v) s where
  inv := W.inv
  pending := W.pending
  done := W.done.more (List.subset_cons_self _ _)
  order := W.order.cons hk .exclusive

/-- A read leaves the transaction where it stands. -/
theorem select (W : Working config es more f s) {α : Type} {look : Db → α}
    {Q : Post Db LockKey Write AppError α}
    (h : ∀ f' s', Later (books config) f s f' s' → Working config es more f' s' →
      Q (.ok (look (f.view database s'))) f' s') :
    wp database (books config) (terms config c) (select look : Action α) f s Q :=
  wp_select fun s' hs' => h _ s' ⟨hs', List.Subset.refl _⟩ ((W.wait hs').saw _)

/-- The wallet of a user is where it was. -/
theorem getWallet (W : Working config es more f s) {userId w : Uuid}
    (hw : s.walletOf userId = some w) {Q : Post Db LockKey Write AppError Uuid}
    (h : ∀ f' s', Later (books config) f s f' s' → Working config es more f' s' →
      Q (.ok w) f' s') :
    wp database (books config) (terms config c) (getWalletAccountId userId) f s Q := by
  refine wp_bind.2 (W.select fun f' s' hl W' => onValue_ok ?_)
  obtain ⟨a, ha, rfl⟩ := Db.walletOf_eq_some.1 hw
  have hgrows : Grows s s' := hl.rely.grows.toGrows
  rw [hgrows.accountByKey_view ha f]
  exact wp_pure (h f' s' hl W')

/-- A balance is returned, or an error that is not about funds. -/
theorem getBalance (W : Working config es more f s) {id : Uuid}
    {Q : Post Db LockKey Write AppError Money}
    (h : ∀ money f' s', Later (books config) f s f' s' → Working config es more f' s' →
      Q (.ok money) f' s')
    (herror : ∀ e f' s', Benign e → Q (.error e) f' s') :
    wp database (books config) (terms config c) (getBalance id) f s Q := by
  refine wp_bind.2 (W.select fun f' s' hl W' => onValue_ok (wp_check ?_))
  unfold readBigint
  split
  · exact h _ f' s' hl W'
  · exact herror _ f' s' ⟨by simp, by simp⟩

/-- A notification is an effect of its own. -/
theorem publish (W : Working config es [] f s) {e : RoundDomainEvent}
    {Q : Post Db LockKey Write AppError Unit}
    (h : ∀ f' s', Later (books config) f s f' s' →
      Working config (es ++ [.aside (.notify e)]) [] f' s' → Q (.ok ()) f' s') :
    wp database (books config) (terms config c) (publish e) f s Q := by
  refine wp_put (List.nil_subset _) (fun s' _ ht => ht.apply_other (by simp) (by simp)) fun s' hs' => ?_
  have W' := W.wait hs'
  refine h _ s' ⟨hs', List.Subset.refl _⟩ ⟨W'.inv, ?_, fun s'' h'' => ?_, W'.order⟩
  · change f.pending ++ _ = _
    rw [W.pending, rowsOf_snoc]
    simp [Effect.rows]
  · exact (W'.done s'' h'').snoc rfl

end Working

/-! ## The two halves -/

/-- The row of an active bet has been updated, and the posting is still to come. -/
structure Halfway (config : Config) (es : List Effect) (b : Bet) (u : BetUpdate)
    (f : Standing Db LockKey Write) (s : Db) : Prop
    extends Working config es [.updateBet b.id u] f s where
  locked : (.bet b.id, .exclusive) ∈ f.held
  found : (database.applyAll s (rowsOf es)).bet b.id = some b
  active : b.status = .ACTIVE

/-- What is visible of a locked bet stays as it is. -/
theorem bet_later (h : Later (books config) f s f' s') {id : Uuid}
    (hlock : (.bet id, .exclusive) ∈ f.held) (rows : List Write) :
    (database.applyAll s' rows).bet id = (database.applyAll s rows).bet id := by
  have hsame : Same (.bet id) .exclusive s s' := h.rely.same _ hlock
  exact hsame.applyAll rows

/-- The wallet is found between the two halves, too. -/
theorem Halfway.getWallet {b : Bet} {u : BetUpdate} (H : Halfway config es b u f s)
    {userId w : Uuid} (hw : s.walletOf userId = some w)
    {Q : Post Db LockKey Write AppError Uuid}
    (h : ∀ f' s', Later (books config) f s f' s' → Halfway config es b u f' s' →
      Q (.ok w) f' s') :
    wp database (books config) (terms config c) (getWalletAccountId userId) f s Q :=
  H.toWorking.getWallet hw fun f' s' hl W' =>
    h f' s' hl ⟨W', hl.kept H.locked, (bet_later hl H.locked _).trans H.found, H.active⟩

/-- `UPDATE bets … WHERE status = 'ACTIVE'` on an active bet that is locked. -/
theorem wp_updateActiveBet (W : Working config es [] f s) {b : Bet} {u : BetUpdate}
    (hlock : (.bet b.id, .exclusive) ∈ f.held)
    (hbet : (database.applyAll s (rowsOf es)).bet b.id = some b) (hactive : b.status = .ACTIVE)
    {Q : Post Db LockKey Write AppError (Option Bet)}
    (hok : ∀ f' s', Later (books config) f s f' s' → Halfway config es b u f' s' →
      (u.row b).violated = none → Q (.ok (some (u.row b))) f' s')
    (herror : ∀ e f' s', Benign e → Q (.error e) f' s') :
    wp database (books config) (terms config c) (updateActiveBet b.id u) f s Q := by
  have hR := books_regular config
  have hfind : ∀ {f' s'}, Later (books config) f s f' s' →
      ((f.view database s').bet b.id).filter (fun b => b.status == .ACTIVE) = some b := by
    intro f' s' hl
    rw [W.view, Database.applyAll_nil, bet_later hl hlock, hbet, Option.filter_some,
      if_pos (by simp [hactive])]
  unfold updateActiveBet
  refine wp_bind.2 (wp_selectForLock (fun s₁ h₁ hnone => ?_) (fun s₁ row h₁ hrow s₂ h₂ => ?_)
    fun s₁ row h₁ hrow s₂ h₂ _ => ?_)
  · rw [hfind ⟨h₁, List.Subset.refl _⟩] at hnone
    cases hnone
  · obtain rfl : b = row := Option.some.inj ((hfind ⟨h₁, List.Subset.refl _⟩).symm.trans hrow)
    exact fun _ _ => .inl hlock
  · obtain rfl : b = row := Option.some.inj ((hfind ⟨h₁, List.Subset.refl _⟩).symm.trans hrow)
    have h₁₂ := h₁.trans hR h₂
    have W₂ := ((W.wait h₁).saw (f.view database s₁)).wait h₂
    rw [hfind ⟨h₁₂, List.Subset.refl _⟩]
    refine onValue_ok (wp_bind.2 (wp_assertChecks (fun hchecks => onValue_ok ?_) fun _ _ =>
      herror _ _ _ ⟨by simp, by simp⟩))
    refine wp_bind.2 (wp_put ?_ (fun s' _ ht => ht.apply_other (by simp) (by simp)) fun s₃ h₃ => ?_)
    · exact List.cons_subset.2 ⟨List.mem_cons_self, List.nil_subset _⟩
    · have hl : Later (books config) f s f s₃ :=
        ⟨h₁₂.trans hR (h₃.mono (List.subset_cons_self _ _)), List.Subset.refl _⟩
      have W₃ := (W₂.locked (.inr ⟨b.id, rfl⟩) (f.view database s₂)).wait h₃
      refine hok _ s₃ ⟨hl.rely, List.subset_cons_self _ _⟩
        ⟨⟨W₃.inv, ?_, W₃.done, W₃.order⟩, List.mem_cons_self,
          (bet_later hl hlock _).trans hbet, hactive⟩ hchecks
      change f.pending ++ _ = _
      rw [W.pending, List.append_nil]

/-- The posting that closes a bet, after its row has been updated. -/
theorem wp_closePost (hc : ∀ input, c ≠ .placeBet input) {w : Uuid} {b : Bet} {u : BetUpdate}
    {kind : TransactionKind} {rest : List Posting} (H : Halfway config es b u f s)
    (hw : s.walletOf b.userId = some w)
    (hrest : ∀ p ∈ rest, p.accountId = houseId ∨
      (p.accountId = w ∧ 0 ≤ p.amount.minor ∧
        Always (books config) f.held s fun s' => c.pays s' b.userId))
    (hpayout : 0 ≤ u.payoutMinor.minor)
    (hrefund : u.status = .VOIDED → u.payoutMinor = b.stakeMinor)
    (hkind : u.status.settlement = some kind)
    (hnet : ∀ i, net (⟨escrowId, b.stakeMinor.negate⟩ :: rest) i =
      (if i = w then u.payoutMinor.minor else 0) -
        (if i = escrowId then b.stakeMinor.minor else 0) +
        (if i = houseId then b.stakeMinor.minor - u.payoutMinor.minor else 0))
    {Q : Post Db LockKey Write AppError PostedTransaction}
    (hok : ∀ posted p f' s', Later (books config) f s f' s' →
      Working config (es ++ [.close b.id u p]) [] f' s' → Q (.ok posted) f' s')
    (herror : ∀ e f' s', Benign e → Q (.error e) f' s') :
    wp database (books config) (terms config c)
      (postEnlisted ⟨kind, ⟨escrowId, b.stakeMinor.negate⟩ :: rest, some ⟨"bet", b.id⟩⟩) f s Q := by
  have hR := books_regime config
  have hwallet : ∀ {s'}, Rely (books config) f.held s s' → s'.walletOf b.userId = some w :=
    fun h => (hR.grows h.grows).walletOf hw
  have hbet : ∀ {f' s'}, Later (books config) f s f' s' →
      (database.applyAll s' (rowsOf es)).bet b.id = some b := fun hl =>
    (bet_later hl H.locked _).trans H.found
  have hw3 : 3 < w := H.inv.housed.wallet_gt hw
  have hge : ∀ p ∈ rest, escrowId ≤ p.accountId := fun p hp => by
    rcases hrest p hp with h | ⟨h, -⟩
    · rw [h]
      decide
    · rw [h]
      exact (Nat.lt_trans (by decide : escrowId < 3) hw3).le
  refine wp_postEnlisted (M := fun _ _ => True) hR (terms_fair config c) H.inv ?_
    (fun _ _ _ _ _ _ _ _ _ => trivial)
    (fun y p f₁ s₁ htx hpostings hmatch hchecked P₁ => ?_)
    (fun e hbal => herror e f s (assertBalanced_benign hbal))
    fun y e f₁ s₁ hab hfails _ => ?_
  · intro before q after hsplit f₁ s₁ hl hgot honly hmoney hrow
    rcases ordered_escrow_split hge hsplit with ⟨rfl, rfl⟩ | ⟨done, rfl, hq, -⟩
    · rcases H.order with hescrow | hrows
      · exact .inl (hl.kept hescrow)
      · refine .inr (.escrow hc fun h hh hrow => ?_)
        rcases honly h hh hrow with hh | ⟨q', hq', -⟩
        · exact hrows h hh hrow
        · cases hq'
    · have hescrow := hgot _ List.mem_cons_self
      rcases hrest q hq with h | ⟨h, -, hpays⟩
      · rw [h]
        exact .inr (.house hescrow)
      · rw [h]
        exact .inr (.payee hescrow (hwallet hl.rely) (hpays s₁ hl.rely))
  · have hescrow : (LockKey.balance escrowId, LockMode.exclusive) ∈ f₁.held := by
      refine P₁.got ?_
      change _ ∈ postLocks y.uuid (ordered (⟨escrowId, b.stakeMinor.negate⟩ :: rest))
      rw [ordered_escrow hge]
      simp [postLocks]
    refine hok _ p f₁ s₁ P₁.toLater ⟨P₁.rely.inv, ?_, fun s₂ h₂ => ?_, .inl hescrow⟩
    · rw [P₁.pending, H.pending, rowsOf_snoc]
      simp [Effect.rows]
    · have hl : Later (books config) f s f₁ s₂ := P₁.toLater.wait hR.regular h₂
      refine (H.done s₂ hl.rely).snoc ⟨hpayout, ?_, ⟨b, hbet hl, H.active, w, ?_, ?_⟩,
        kind, hkind, hmatch, ?_, by rw [htx], by rw [htx]⟩
      · intro hvoid b' hb'
        rw [hbet hl] at hb'
        exact Option.some.inj hb' ▸ hrefund hvoid
      · exact (Grows.applyAll s₂ (rowsOf es)).walletOf (hwallet hl.rely)
      · intro i
        rw [hpostings]
        exact hnet i
      · have htxLock : (LockKey.transaction y.uuid, LockMode.exclusive) ∈ f₁.held :=
          P₁.got (List.mem_append_right _ List.mem_cons_self)
        have hsame := (hR.same_later ⟨h₂, List.Subset.refl _⟩ htxLock {}).applyAll (rowsOf es)
        have hfresh := hchecked.fresh
        rw [H.view, htx] at hfresh
        rw [htx]
        exact hsame.1.trans hfresh
  · have hcons := ((H.done s₁ hab.rely).keeps hab.rely.inv).1
    refine herror e f₁ s₁ (hfails.benign ?_)
    intro before q after hsplit a ha hprotected
    rw [H.view] at ha ⊢
    exact hcons.closing_nonneg (hbet hab.toLater) H.active hw3
      (fun p hp => (hrest p hp).imp_right fun h => ⟨h.1, h.2.1⟩) hsplit ha hprotected

/-! ## One bet -/

/-- A bet has been closed, and everyone has been told. -/
def BetClosed (config : Config) (es : List Effect) (b : Bet) (f : Standing Db LockKey Write)
    (s : Db) : Prop :=
  ∃ u p told, u.status ≠ .ACTIVE ∧ (∀ e ∈ told, ∃ n, e = Effect.aside (.notify n)) ∧
    Working config (es ++ .close b.id u p :: told) [] f s

/-- With the posting the bet is closed. -/
theorem BetClosed.of_post {b : Bet} {u : BetUpdate} {p : Posted}
    (W : Working config (es ++ [.close b.id u p]) [] f s) (hne : u.status ≠ .ACTIVE) :
    BetClosed config es b f s :=
  ⟨u, p, [], hne, fun _ he => absurd he List.not_mem_nil, W⟩

namespace BetClosed
variable {b : Bet}

/-- A read leaves the bet closed. -/
theorem select (C : BetClosed config es b f s) {α : Type} {look : Db → α}
    {Q : Post Db LockKey Write AppError α}
    (h : ∀ v f' s', Later (books config) f s f' s' → BetClosed config es b f' s' →
      Q (.ok v) f' s') :
    wp database (books config) (terms config c) (Program.select look : Action α) f s Q := by
  obtain ⟨u, p, told, hne, htold, W⟩ := C
  exact W.select fun f' s' hl W' => h _ f' s' hl ⟨u, p, told, hne, htold, W'⟩

/-- So does the lookup of a balance. -/
theorem getBalance (C : BetClosed config es b f s) {id : Uuid}
    {Q : Post Db LockKey Write AppError Money}
    (h : ∀ money f' s', Later (books config) f s f' s' → BetClosed config es b f' s' →
      Q (.ok money) f' s')
    (herror : ∀ e f' s', Benign e → Q (.error e) f' s') :
    wp database (books config) (terms config c) (getBalance id) f s Q := by
  obtain ⟨u, p, told, hne, htold, W⟩ := C
  exact W.getBalance (fun money f' s' hl W' => h money f' s' hl ⟨u, p, told, hne, htold, W'⟩)
    herror

/-- A notification about it is one of those that come after it. -/
theorem publish (C : BetClosed config es b f s) {n : RoundDomainEvent}
    {Q : Post Db LockKey Write AppError Unit}
    (h : ∀ f' s', Later (books config) f s f' s' → BetClosed config es b f' s' →
      Q (.ok ()) f' s') :
    wp database (books config) (terms config c) (publish n) f s Q := by
  obtain ⟨u, p, told, hne, htold, W⟩ := C
  refine W.publish fun f' s' hl W' => h f' s' hl ⟨u, p, told ++ [.aside (.notify n)], hne, ?_, ?_⟩
  · intro e he
    rcases List.mem_append.1 he with he | he
    · exact htold e he
    · exact ⟨n, List.mem_singleton.1 he⟩
  · rwa [List.append_assoc, List.cons_append] at W'

end BetClosed

/-- The outcome of a bet is announced. -/
theorem wp_publishBetOutcome {b : Bet} {betId userId walletId : Uuid}
    (C : BetClosed config es b f s) {Q : Post Db LockKey Write AppError Unit}
    (hok : ∀ f' s', Later (books config) f s f' s' → BetClosed config es b f' s' →
      Q (.ok ()) f' s')
    (herror : ∀ e f' s', Benign e → Q (.error e) f' s') :
    wp database (books config) (terms config c) (publishBetOutcome betId userId walletId) f s
      Q := by
  have hR := books_regular config
  refine wp_bind.2 (C.select fun found f₁ s₁ h₁ C₁ => onValue_ok ?_)
  cases found with
  | none => exact herror _ f₁ s₁ ⟨by simp, by simp⟩
  | some row =>
    refine wp_bind.2 (C₁.getBalance (fun money f₂ s₂ h₂ C₂ => onValue_ok ?_) herror)
    refine wp_bind.2 (C₂.publish fun f₃ s₃ h₃ C₃ => onValue_ok ?_)
    exact C₃.publish fun f₄ s₄ h₄ C₄ =>
      hok f₄ s₄ (((h₁.trans hR h₂).trans hR h₃).trans hR h₄) C₄

/-- What a procedure that closes one bet needs to know of it. -/
structure Closable (es : List Effect) (b : Bet) (f : Standing Db LockKey Write) (s : Db) :
    Prop where
  locked : (.bet b.id, .exclusive) ∈ f.held
  found : (database.applyAll s (rowsOf es)).bet b.id = some b
  active : b.status = .ACTIVE
  placed : s.bet b.id = some b

/-- A bet that is locked stays as it is while the session waits. -/
theorem Closable.wait {b : Bet} (h : Closable es b f s) (hl : Later (books config) f s f' s') :
    Closable es b f' s' where
  locked := hl.kept h.locked
  found := (bet_later hl h.locked _).trans h.found
  active := h.active
  placed := (bet_later hl h.locked []).trans h.placed

/-- The owner of a bet has a wallet. -/
theorem Working.wallet (W : Working config es more f s) {b : Bet} (h : s.bet b.id = some b) :
    ∃ w, s.walletOf b.userId = some w := by
  obtain ⟨u, hu, hid⟩ := List.mem_map.1 (W.inv.fits b (Db.bet_mem h)).user
  exact Option.isSome_iff_exists.1 (hid ▸ W.inv.housed.owners u hu)

/-- The wallet of a user stays where it is. -/
theorem later_wallet (h : Later (books config) f s f' s') {userId w : Uuid}
    (hw : s.walletOf userId = some w) : s'.walletOf userId = some w := by
  have hgrows : Grows s s' := h.rely.grows.toGrows
  exact hgrows.walletOf hw

/-- A stake that is lost goes to the house. -/
theorem wp_settleLostBet (hc : ∀ input, c ≠ .placeBet input) {b : Bet}
    (W : Working config es [] f s) (hb : Closable es b f s)
    {Q : Post Db LockKey Write AppError Unit}
    (hok : ∀ f' s', Later (books config) f s f' s' → BetClosed config es b f' s' →
      Q (.ok ()) f' s')
    (herror : ∀ e f' s', Benign e → Q (.error e) f' s') :
    wp database (books config) (terms config c) (settleLostBet b) f s Q := by
  have hR := books_regular config
  obtain ⟨w, hw⟩ := W.wallet hb.placed
  have hw3 : 3 < w := W.inv.housed.wallet_gt hw
  refine wp_bind.2 (wp_read fun x => onValue_ok ?_)
  refine wp_bind.2 (wp_updateActiveBet W hb.locked hb.found hb.active (fun f₁ s₁ h₁ H _ => ?_)
    herror)
  refine onValue_ok (wp_bind.2 (wp_closePost hc H (later_wallet h₁ hw) ?_ (le_refl 0) (by simp) rfl
    (fun i => ?_) (fun posted p f₂ s₂ h₂ W₂ => onValue_ok ?_) herror))
  · intro p hp
    rw [List.mem_singleton.1 hp]
    exact .inl rfl
  · simp only [net_cons, net_nil, Money.negate_minor, Money.zero_minor, eq_comm]
    split_ifs <;> omega
  · have h₁₂ := h₁.trans hR h₂
    refine wp_bind.2 (W₂.getWallet (later_wallet h₁₂ hw) fun f₃ s₃ h₃ W₃ => onValue_ok ?_)
    refine wp_publishBetOutcome (.of_post W₃ (by simp)) (fun f₄ s₄ h₄ C => ?_) herror
    exact hok f₄ s₄ ((h₁₂.trans hR h₃).trans hR h₄) C

/-- A stake that is refunded goes back to the wallet. -/
theorem wp_refundBet (hc : ∀ input, c ≠ .placeBet input) {b : Bet}
    (W : Working config es [] f s) (hb : Closable es b f s)
    (hpays : Always (books config) f.held s fun s' => c.pays s' b.userId)
    {Q : Post Db LockKey Write AppError Unit}
    (hok : ∀ f' s', Later (books config) f s f' s' → BetClosed config es b f' s' →
      Q (.ok ()) f' s')
    (herror : ∀ e f' s', Benign e → Q (.error e) f' s') :
    wp database (books config) (terms config c) (refundBet b) f s Q := by
  have hR := books_regular config
  obtain ⟨w, hw⟩ := W.wallet hb.placed
  have hstake : 0 < b.stakeMinor.minor := (W.inv.fits b (Db.bet_mem hb.placed)).stake
  refine wp_bind.2 (wp_read fun x => onValue_ok ?_)
  refine wp_bind.2 (wp_updateActiveBet W hb.locked hb.found hb.active (fun f₁ s₁ h₁ H _ => ?_)
    herror)
  refine onValue_ok (wp_bind.2 (H.getWallet (later_wallet h₁ hw) fun f₂ s₂ h₂ H₂ => ?_))
  have h₁₂ := h₁.trans hR h₂
  refine onValue_ok (wp_bind.2 (wp_closePost hc H₂ (later_wallet h₁₂ hw) ?_ hstake.le
    (fun _ => rfl) rfl (fun i => ?_) (fun posted p f₃ s₃ h₃ W₃ => onValue_ok ?_) herror))
  · intro p hp
    rw [List.mem_singleton.1 hp]
    exact .inr ⟨rfl, hstake.le, (hpays.wait hR (h₁₂.rely)).more h₁₂.kept⟩
  · simp only [net_cons, net_nil, Money.negate_minor, eq_comm]
    split_ifs <;> omega
  · refine wp_publishBetOutcome (.of_post W₃ (by simp)) (fun f₄ s₄ h₄ C => ?_) herror
    exact hok f₄ s₄ ((h₁₂.trans hR h₃).trans hR h₄) C

/-- What the CHECK constraints say of the multiplier of a bet. -/
theorem Bet.checked_multiplier {b : Bet} (h : b.violated = none) {multiplierBp : ℤ}
    (hm : b.settledMultiplierBp = some multiplierBp) : basisPointsOne ≤ multiplierBp := by
  unfold Bet.violated firstViolated at h
  rw [Option.map_eq_none_iff, List.find?_eq_none] at h
  have hcheck := h ("bets_cashout_multiplier_bp_check", _)
    (List.mem_cons_of_mem _ List.mem_cons_self)
  simpa [hm, basisPointsOne] using hcheck

/-- A win: escrow pays the stake, the house the profit, and the wallet gets both. -/
theorem net_win {w : Uuid} {stake payout profit : Money}
    (hprofit : profit.minor = payout.minor - stake.minor) (hle : stake.minor ≤ payout.minor)
    (i : Uuid) : net (winPostings w stake profit) i =
      (if i = w then payout.minor else 0) - (if i = escrowId then stake.minor else 0) +
        (if i = houseId then stake.minor - payout.minor else 0) := by
  unfold winPostings
  cases hpos : profit.isPositive with
  | true =>
    simp only [List.cons_append, List.nil_append, if_true, net_cons, net_nil,
      Money.negate_minor, hprofit, eq_comm]
    split_ifs <;> omega
  | false =>
    have hzero : ¬0 < profit.minor := fun h => by
      rw [Money.isPositive_iff.2 h] at hpos
      cases hpos
    simp only [List.cons_append, List.nil_append, Bool.false_eq_true, if_false, net_cons,
      net_nil, Money.negate_minor, eq_comm]
    split_ifs <;> omega

/-- A bet that is won: the stake comes back, and the profit with it. -/
theorem wp_winPost (hc : ∀ input, c ≠ .placeBet input) {b : Bet} {u : BetUpdate}
    {payout profit : Money} {multiplierBp multiplier : ℤ} {w : Uuid}
    (H : Halfway config es b u f s) (hw : s.walletOf b.userId = some w)
    (hpays : Always (books config) f.held s fun s' => c.pays s' b.userId)
    (hstatus : u.status = .WON) (hmultiplier : u.settledMultiplierBp = some multiplierBp)
    (hpayout : u.payoutMinor = payout) (hchecks : (u.row b).violated = none)
    (hm : basisPointsFromRaw multiplierBp = .ok multiplier)
    (hp : b.stakeMinor.applyMultiplier multiplier = .ok payout)
    (hprofit : payout.sub b.stakeMinor = .ok profit)
    {Q : Post Db LockKey Write AppError PostedTransaction}
    (hok : ∀ posted f' s', Later (books config) f s f' s' → BetClosed config es b f' s' →
      Q (.ok posted) f' s')
    (herror : ∀ e f' s', Benign e → Q (.error e) f' s') :
    wp database (books config) (terms config c)
      (postEnlisted ⟨.BET_CASHOUT, winPostings w b.stakeMinor profit, some ⟨"bet", b.id⟩⟩) f s
      Q := by
  have hge : basisPointsOne ≤ multiplier := by
    have hrow : (u.row b).settledMultiplierBp = some multiplierBp := by
      simp [BetUpdate.row, hmultiplier]
    unfold basisPointsFromRaw at hm
    split at hm
    · cases hm
      exact Bet.checked_multiplier hchecks hrow
    · cases hm
  have hle := le_applyMultiplier hge hp
  have hstake : 0 ≤ b.stakeMinor.minor := (applyMultiplier_ok hp).2.1
  subst hpayout
  refine wp_closePost hc H hw ?_ (hstake.trans hle) ?_ ?_ (net_win (Money.sub_ok hprofit) hle)
    (fun posted p f' s' hl W => hok posted f' s' hl (.of_post W ?_)) herror
  · intro p hp
    rcases List.mem_cons.1 hp with rfl | hp
    · exact .inr ⟨rfl, hstake, hpays⟩
    · split at hp
      case isFalse => cases hp
      case isTrue hpos =>
        rcases List.mem_pair.1 hp with rfl | rfl
        · exact .inl rfl
        · exact .inr ⟨rfl, (Money.isPositive_iff.1 hpos).le, hpays⟩
  · rw [hstatus]
    simp
  · rw [hstatus]
    rfl
  · rw [hstatus]
    simp

/-- A stake that is won at its odds. -/
theorem wp_settleWonBet (hc : ∀ input, c ≠ .placeBet input) {b : Bet} {oddsBp : ℤ}
    (W : Working config es [] f s) (hb : Closable es b f s)
    (hpays : Always (books config) f.held s fun s' => c.pays s' b.userId)
    {Q : Post Db LockKey Write AppError Unit}
    (hok : ∀ f' s', Later (books config) f s f' s' → BetClosed config es b f' s' →
      Q (.ok ()) f' s')
    (herror : ∀ e f' s', Benign e → Q (.error e) f' s') :
    wp database (books config) (terms config c) (settleWonBet b oddsBp) f s Q := by
  have hR := books_regular config
  obtain ⟨w, hw⟩ := W.wallet hb.placed
  refine wp_bind.2 (wp_check ?_)
  cases hm : basisPointsFromRaw oddsBp with
  | error e => exact herror e f s (basisPointsFromRaw_benign hm)
  | ok multiplier =>
  refine onValue_ok (wp_bind.2 (wp_check ?_))
  cases hp : b.stakeMinor.applyMultiplier multiplier with
  | error e => exact herror e f s (applyMultiplier_benign hp)
  | ok payout =>
  refine onValue_ok (wp_bind.2 (wp_check ?_))
  cases hprofit : Money.sub payout b.stakeMinor with
  | error e => exact herror e f s (Money.sub_benign hprofit)
  | ok profit =>
  refine onValue_ok (wp_bind.2 (wp_read fun x => onValue_ok ?_))
  refine wp_bind.2 (wp_updateActiveBet W hb.locked hb.found hb.active (fun f₁ s₁ h₁ H hchecks => ?_)
    herror)
  refine onValue_ok (wp_bind.2 (H.getWallet (later_wallet h₁ hw) fun f₂ s₂ h₂ H₂ => ?_))
  have h₁₂ := h₁.trans hR h₂
  refine onValue_ok (wp_bind.2 (wp_winPost hc H₂ (later_wallet h₁₂ hw)
    ((hpays.wait hR h₁₂.rely).more h₁₂.kept) rfl rfl rfl hchecks hm hp hprofit
    (fun posted f₃ s₃ h₃ C₃ => onValue_ok ?_) herror))
  refine wp_bind.2 (C₃.select fun displayName f₄ s₄ h₄ C₄ => onValue_ok ?_)
  refine wp_bind.2 (C₄.select fun roundId f₅ s₅ h₅ C₅ => onValue_ok ?_)
  refine wp_bind.2 (C₅.publish fun f₆ s₆ h₆ C₆ => onValue_ok ?_)
  refine wp_publishBetOutcome C₆ (fun f₇ s₇ h₇ C₇ => ?_) herror
  exact hok f₇ s₇ (((((h₁₂.trans hR h₃).trans hR h₄).trans hR h₅).trans hR h₆).trans hR h₇) C₇

end

end Tessera
