import Tessera.Rounds.Outcomes
import Tessera.Rounds.Safety

/-!
# Every bet is paid as the rules say

Whatever a transaction commits to `bets` is the placing of one bet, or the closing of bets that
it has locked, each on the terms of its own round as that round then is.

* `outcomes` — the discipline: the lifecycles, and the outcomes on top of them;
* `Closing` — what a transaction that closes bets has written so far;
* `placeBet_paid`, …, `voidRound_paid` — what each call commits to `bets`;
* `outcomes_verified`, `reachable_outcomes` — the outcomes along every run.
-/

namespace Tessera

open Relational Transactions Transactions.Program

/-- The lifecycles and the outcomes. -/
def outcomes (config : Config) : Discipline Db LockKey Write :=
  (lifecycle config).upon Outcomes fun _ _ => True

/-- The terms of a call. -/
abbrev betTerms (c : Call) : Terms Db LockKey Write := .committing (BetChange c)

/-- Whether the bets were paid rightly depends on the bets and the rounds only. -/
theorem Outcomes.of_eq {s s' : Db} (hs : Outcomes s) (hbets : s'.bets = s.bets)
    (hrounds : s'.rounds = s.rounds) : Outcomes s' := by
  intro b hb
  unfold Db.round
  rw [hbets] at hb
  rw [hrounds]
  exact hs b hb

/-- A layer can be put upon the outcomes. -/
theorem outcomes_base (config : Config) : Base (outcomes config) :=
  (lifecycle_base config).upon (fun _ => trivial) (fun _ _ => trivial) fun {s _} hs hw =>
    ⟨hs.of_eq (Write.isDraw_same hw s).1.bets (isDraw_rounds hw s), trivial⟩

section
variable {config : Config} {crypto : Crypto} {c : Call} {f f' : Standing Db LockKey Write}
variable {s s' : Db} {α : Type} {roundId : Uuid} {b : Bet} {r r' : Round} {u : BetUpdate}
variable {outcome : Option RoundStatus} {on : Uuid → Prop} {tables : List Table}

/-- The outcomes with these terms: nothing is asked of row locks or draws. -/
theorem outcomes_overlay (config : Config) (c : Call) :
    Overlay (outcomes config).eased (betTerms c) :=
  (outcomes_base config).overlay _

/-! ## Ready to commit -/

/-- What is pending for `bets` is a change that the call may make, now and whatever the others
do. -/
def BetReady (config : Config) (c : Call) (f : Standing Db LockKey Write) (s : Db) : Prop :=
  Transactions.Ready (outcomes config).eased (BetChange c) f s

/-- The block of a transaction ends ready to commit. -/
def BetEnds (config : Config) (c : Call) : Post Db LockKey Write AppError α :=
  EndsReady (outcomes config).eased (BetChange c)

/-- Writes to other tables change no bet. -/
theorem BetChange.idle {rows : List Write} (h : rowsOn .bets rows = []) : BetChange c s rows :=
  .closed none fun w hw => by
    rw [h] at hw
    cases hw

/-- Writes to other tables that are added later. -/
theorem BetChange.more {rows rows' : List Write} (h : BetChange c s rows)
    (hsub : rows ⊆ rows') (hsame : rowsOn .bets rows' = rowsOn .bets rows) :
    BetChange c s rows' := by
  cases h with
  | placed hr hactive hpriced honly => exact .placed hr hactive hpriced (hsame.trans honly)
  | closed outcome each =>
    refine .closed outcome fun w hw => ?_
    rw [hsame] at hw
    obtain ⟨id, u, b, r, hw', hb, hr, hclosed, hends⟩ := each w hw
    refine ⟨id, u, b, r, hw', hb, hr, hclosed, fun status hstatus => ?_⟩
    obtain ⟨v, hv, hvstatus⟩ := hends status hstatus
    exact ⟨v, hsub hv, hvstatus⟩

/-- A session without a bet among its writes may commit. -/
theorem BetReady.idle (h : rowsOn .bets f.pending = []) : BetReady config c f s :=
  fun _ _ => .idle h

/-- A part that writes no bet leaves a session ready to commit. -/
theorem BetReady.onward (h : BetReady config c f s)
    (ho : Onward (outcomes config).eased (fun w => w.table ∈ tables) f s f' s')
    (ht : .bets ∉ tables) : BetReady config c f' s' := by
  intro s'' hs''
  have hR := (outcomes_overlay config c).lax.regular
  obtain ⟨rows, hrows, -⟩ := ho.pending
  refine (h s'' (ho.rely.trans hR (hs''.mono ho.kept))).more ?_ (rowsOn_onward ho ht)
  rw [hrows]
  exact List.subset_append_left _ _

/-- The last part of a transaction, once it is ready. -/
theorem wp_lastBetPart (tables : List Table) {p : Action α} (h : BetReady config c f s)
    (hs : (outcomes config).eased.inv s) (hp : Touches tables p) (ht : .bets ∉ tables) :
    wp database (outcomes config).eased (betTerms c) p f s (BetEnds config c) :=
  wp_mono (fun _ _ _ ho _ _ => h.onward ho ht) ((outcomes_overlay config c).part hp hs)

/-- A part that writes other tables, before the session is ready. -/
theorem wp_thenBet (tables : List Table) {β : Type} {p : Action β} {k : β → Action α} (hp : Touches tables p)
    (hs : (outcomes config).eased.inv s)
    (hk : ∀ a f' s', Onward (outcomes config).eased (fun w => w.table ∈ tables) f s f' s' →
      wp database (outcomes config).eased (betTerms c) (k a) f' s' (BetEnds config c)) :
    wp database (outcomes config).eased (betTerms c) (p >>= k) f s (BetEnds config c) := by
  refine wp_bind.2 (wp_mono (fun r f' s' h => ?_) ((outcomes_overlay config c).part hp hs))
  cases r with
  | ok a => exact hk a f' s' h
  | error e => exact endsReady_error

/-- A transaction whose block ends ready. -/
theorem wp_betTransaction {body : Action α}
    (h : wp database (outcomes config).eased (betTerms c) body f s (BetEnds config c)) :
    wp database (outcomes config).eased (betTerms c) (transaction body) f s fun _ _ _ => True :=
  wp_mono (fun _ _ _ _ => trivial) (wp_transaction_ready h)

/-- A call that writes no bet. -/
theorem idle_paid {p : Action α}
    (hp : p.Writes (fun _ => []) (fun w => w.table ≠ .bets) (fun w => w.isDraw = true) f.held)
    (hf : f.pending = []) :
    wp database (outcomes config).eased (betTerms c) p f s fun _ _ _ => True :=
  wp_mono (fun _ _ _ _ => trivial) ((outcomes_overlay config c).untouched
    (fun _ _ hrows => .idle (rowsOn_eq_nil hrows)) hp (by rw [hf]; exact List.forall_mem_nil _))

/-! ## Placing -/

/-- A new bet that is priced for its round may be committed, as the round is locked. -/
theorem BetReady.placed (hlock : (.round b.roundId, .share) ∈ f.held)
    (hround : s.round b.roundId = some r) (hactive : b.status = .ACTIVE)
    (hpriced : b.Priced r.game) (hf : rowsOn .bets f.pending = [.insertBet b]) :
    BetReady config c f s := by
  intro s' hs'
  have hsame := ((outcomes_overlay config c).kept hs' hlock).1
  exact .placed (hsame.trans hround) hactive hpriced hf

/-- The bet that is recorded is priced for the game of its round. -/
theorem recordBet_paid {input : PlaceBetInput} {stake : Money} {priced : PricedSelection}
    {walletId : Uuid} (hpriced : priceSelection r.game input.selection = .ok priced)
    (hlock : (.round input.roundId, .share) ∈ f.held) (hround : s.round input.roundId = some r)
    (hf : rowsOn .bets f.pending = []) :
    wp database (outcomes config).eased (betTerms c)
      (recordBet input stake r.game priced walletId) f s (BetEnds config c) := by
  have hO := outcomes_overlay config c
  refine wp_bind.2 (wp_read fun x => onValue_ok (wp_bind.2 (wp_ensure (fun _ => onValue_ok ?_)
    fun _ => endsReady_error)))
  refine wp_bind.2 (hO.insertBet (fun f₁ s₁ h₁ hchecks hpending => onValue_ok ?_)
    fun _ _ _ => endsReady_error)
  have hround₁ : s₁.round input.roundId = some r := (hO.kept h₁.rely hlock).1.trans hround
  refine wp_lastBetPart [.ledger, .notifications] (.placed (h₁.kept hlock) hround₁ rfl
    (priceSelection_priced hpriced rfl rfl rfl (Bet.paired hchecks)) ?_) h₁.rely.inv ?_ (by simp)
  · rw [hpending, rowsOn_append, hf]
    rfl
  · exact Within.bind (postEnlisted_touches.more (by simp)) fun _ =>
      Within.bind Within.select fun _ => Within.bind getBalance_touches fun _ =>
        Within.bind (publish_touches.more (by simp)) fun _ =>
          Within.bind (publish_touches.more (by simp)) fun _ => trivial

/-- `placeBet` inserts a bet that is priced for its round, or none. -/
theorem placeBetTransaction_paid {input : PlaceBetInput} {stake : Money} (hf : f.pending = []) :
    wp database (outcomes config).eased (betTerms c) (placeBetTransaction input stake) f s
      (BetEnds config c) := by
  have hO := outcomes_overlay config c
  refine wp_bind.2 (wp_selectOnward fun f₁ s₁ h₁ => onValue_ok ?_)
  have hf₁ : f₁.pending = [] := h₁.still.trans hf
  cases findByIdempotencyKey input.userId input.idempotencyKey (f₁.view database s₁) with
  | some replay => exact wp_pure fun _ _ => BetReady.idle (by rw [hf₁]; rfl)
  | none =>
    refine wp_bind.2 (hO.selectForLock (.round input.roundId)
      (fun _ _ hrow => congrArg LockKey.round (lookup_key hrow))
      (fun f₂ s₂ h₂ _ => onValue_ok (wp_throw endsReady_error))
      fun f₂ s₂ round h₂ hlock hround => onValue_ok ?_)
    have hf₂ : f₂.pending = [] := h₂.still.trans hf₁
    rw [round_view (by rw [hf₂]; rfl)] at hround
    dsimp only
    split
    · exact wp_throw endsReady_error
    · refine wp_bind.2 (wp_check ?_)
      cases hpriced : priceSelection round.game input.selection with
      | error e => exact endsReady_error
      | ok priced =>
        refine wp_thenBet [] getWalletAccountId_touches h₂.rely.inv fun walletId f₃ s₃ h₃ =>
          wp_thenBet [] lockAndAssertSufficient_touches h₃.rely.inv fun _ f₄ s₄ h₄ => ?_
        have hl : Later (outcomes config).eased f₂ s₂ f₄ s₄ :=
          h₃.toLater.trans hO.lax.regular h₄.toLater
        refine recordBet_paid hpriced (hl.kept hlock)
          ((hO.kept hl.rely hlock).1.trans hround) ?_
        rw [rowsOn_onward h₄ List.not_mem_nil, rowsOn_onward h₃ List.not_mem_nil, hf₂]
        rfl

/-- So does the call, when it replays a request after a conflict too. -/
theorem placeBet_paid {input : PlaceBetInput} (hf : f.pending = []) :
    wp database (outcomes config).eased (betTerms c) (placeBet config input) f s
      fun _ _ _ => True := by
  unfold placeBet
  split
  · exact wp_throw trivial
  · refine wp_bind.2 (wp_check ?_)
    cases Money.fromMinor input.stakeMinor with
    | error e => trivial
    | ok stake =>
      refine wp_handle.2 (wp_mono (fun r f₁ s₁ _ => ?_)
        (wp_betTransaction (placeBetTransaction_paid hf)))
      cases r with
      | ok view => exact wp_pure trivial
      | error e =>
        dsimp only
        unfold placeBetRecover
        split
        · refine wp_bind.2 (wp_select fun s₂ _ => onValue_ok ?_)
          cases findByIdempotencyKey input.userId input.idempotencyKey (f₁.view database s₂) with
          | none => exact wp_throw trivial
          | some existing => exact wp_pure trivial
        · exact wp_throw trivial

/-! ## Closing -/

/-- What is true of the round of a bet that is closed stays true. -/
theorem Closed.later (h : Closed c b r u outcome) (hr : r.Becomes r') :
    Closed c b r' u outcome := by
  have hgame : r'.core.game = r.core.game := congrArg Round.game hr.core
  have hcrash : r'.core.crashPointBp = r.core.crashPointBp := congrArg Round.crashPointBp hr.core
  have hpocket : r'.core.winningPocket = r.core.winningPocket :=
    congrArg Round.winningPocket hr.core
  change r'.game = r.game at hgame
  change r'.crashPointBp = r.crashPointBp at hcrash
  change r'.winningPocket = r.winningPocket at hpocket
  cases h with
  | cashedOut hcall hbet huser hg hstarted hpoint hbefore hamount =>
    exact .cashedOut hcall hbet huser (hgame.trans hg) (hr.started _ hstarted)
      (hcrash.trans hpoint) hbefore hamount
  | won hengine hg hwins hamount =>
    exact .won hengine (hgame.trans hg) (by rw [hpocket]; exact hwins) hamount
  | lost hengine hloses =>
    exact .lost hengine fun hg => by
      rw [hpocket]
      exact hloses (hgame.symm.trans hg)
  | refunded hengine => exact .refunded hengine

/-- What a transaction that closes bets has written so far: updates of bets that it has locked,
each closed on the terms of its round. -/
def Closing (c : Call) (outcome : Option RoundStatus) (on : Uuid → Prop)
    (f : Standing Db LockKey Write) (s : Db) : Prop :=
  ∀ w ∈ rowsOn .bets f.pending, ∃ b r u, w = .updateBet b.id u ∧
    (.bet b.id, .exclusive) ∈ f.held ∧ s.bet b.id = some b ∧ on b.roundId ∧
    s.round b.roundId = some r ∧ Closed c b r u outcome

/-- Nothing has been closed yet. -/
theorem Closing.nil (h : rowsOn .bets f.pending = []) : Closing c outcome on f s := by
  intro w hw
  rw [h] at hw
  cases hw

/-- The bets closed so far stay locked, so what was written for them stays right. -/
theorem Closing.later (h : Closing c outcome on f s)
    (hl : Later (outcomes config).eased f s f' s')
    (hsame : rowsOn .bets f'.pending = rowsOn .bets f.pending) : Closing c outcome on f' s' := by
  intro w hw
  rw [hsame] at hw
  obtain ⟨b, r, u, rfl, hlock, hb, hon, hr, hclosed⟩ := h w hw
  obtain ⟨r', hr', hbecomes⟩ : ∃ r', s'.round b.roundId = some r' ∧ r.Becomes r' :=
    hl.rely.grows.1.2 _ r hr
  exact ⟨b, r', u, rfl, hl.kept hlock,
    Eq.trans ((outcomes_overlay config c).kept hl.rely hlock) hb, hon, hr', hclosed.later hbecomes⟩

/-- A transaction that closes bets is ready once their round is updated with them. -/
theorem Closing.ready (h : Closing c outcome on f s)
    (hends : ∀ status, outcome = some status → ∀ roundId, on roundId →
      ∃ v, .updateRound roundId v ∈ f.pending ∧ v.status = status) : BetReady config c f s := by
  intro s' hs'
  have hl : Later (outcomes config).eased f s f s' := ⟨hs', List.Subset.refl _⟩
  refine .closed outcome fun w hw => ?_
  obtain ⟨b, r, u, rfl, -, hb, hon, hr, hclosed⟩ := h.later hl rfl w hw
  exact ⟨b.id, u, b, r, rfl, hb, hr, hclosed, fun status hstatus =>
    hends status hstatus b.roundId hon⟩

/-- One bet more is closed. -/
def EndsClosing (config : Config) (c : Call) (outcome : Option RoundStatus) (on : Uuid → Prop)
    (f : Standing Db LockKey Write) (s : Db) : Post Db LockKey Write AppError α :=
  fun res f' s' => ∀ a, res = .ok a →
    Onward (outcomes config).eased (fun w => w.table ∈ closingTables) f s f' s' ∧
      Closing c outcome on f' s'

/-- After an error nothing is promised about the bets. -/
theorem endsClosing_error {e : AppError} :
    EndsClosing config c outcome on f s (.error e : Except AppError α) f' s' :=
  fun _ h => by cases h

/-- A bet that is locked is updated, and what follows writes other tables. -/
theorem wp_closeBet {k : Option Bet → Action α} (hk : ∀ x, Touches [.ledger, .notifications] (k x))
    (h : Closing c outcome on f s) (hlock : (.bet b.id, .exclusive) ∈ f.held)
    (hb : s.bet b.id = some b) (hon : on b.roundId) (hr : s.round b.roundId = some r)
    (hclosed : Closed c b r u outcome) :
    wp database (outcomes config).eased (betTerms c) (updateActiveBet b.id u >>= k) f s
      (EndsClosing config c outcome on f s) := by
  have hO := outcomes_overlay config c
  have hR := hO.lax.regular
  have hrest : ∀ {x f₁ s₁}, Onward (outcomes config).eased (fun w => w.table ∈ closingTables)
      f s f₁ s₁ → Closing c outcome on f₁ s₁ →
      wp database (outcomes config).eased (betTerms c) (k x) f₁ s₁
        (EndsClosing config c outcome on f s) := by
    intro x f₁ s₁ h₁ hclosing
    refine wp_mono (fun _ f₂ s₂ h₂ _ _ => ⟨h₁.trans hR (h₂.mono fun w hw => ?_), ?_⟩)
      (hO.part (hk x) h₁.rely.inv)
    · exact List.mem_cons_of_mem _ hw
    · exact hclosing.later h₂.toLater (rowsOn_onward h₂ (by simp))
  refine wp_bind.2 (hO.updateActiveBet (fun f₁ s₁ h₁ _ => onValue_ok ?_)
    (fun f₁ s₁ row h₁ hlog hpending _ _ _ => onValue_ok ?_) fun _ _ _ => endsClosing_error)
  · exact hrest (h₁.mono fun _ hw => hw.elim) (h.later h₁.toLater (by rw [h₁.still]))
  · refine hrest ⟨h₁, ⟨_, hpending, by simp [Write.table]⟩, hlog⟩ fun w hw => ?_
    rw [hpending, rowsOn_append] at hw
    obtain ⟨r', hr', hbecomes⟩ : ∃ r', s₁.round b.roundId = some r' ∧ r.Becomes r' :=
      h₁.rely.grows.1.2 _ r hr
    rcases List.mem_append.1 hw with hw | hw
    · obtain ⟨b', r₁, u', rfl, hlock', hb', hon', hr₁, hclosed'⟩ := h w hw
      obtain ⟨r₁', hr₁', hbecomes'⟩ : ∃ r', s₁.round b'.roundId = some r' ∧ r₁.Becomes r' :=
        h₁.rely.grows.1.2 _ r₁ hr₁
      exact ⟨b', r₁', u', rfl, h₁.kept hlock', Eq.trans (hO.kept h₁.rely hlock') hb', hon', hr₁',
        hclosed'.later hbecomes'⟩
    · obtain rfl : w = .updateBet b.id u := by simpa [rowsOn, Write.table] using hw
      exact ⟨b, r', u, rfl, h₁.kept hlock, Eq.trans (hO.kept h₁.rely hlock) hb, hon, hr',
        hclosed.later hbecomes⟩

/-! ## Cashing out -/

/-- `basisPointsFromRaw` keeps the factor that it accepts. -/
theorem basisPointsFromRaw_ok {basisPoints raw : ℤ} (h : basisPointsFromRaw raw = .ok basisPoints) :
    basisPoints = raw := by
  unfold basisPointsFromRaw at h
  split at h <;> cases h
  rfl

/-- The bet that is cashed out is paid by the curve at the reading of the clock. -/
theorem payCashOut_paid {input : CashOutInput} {game : GameKind} {now startedAt : Time} {crash : ℤ}
    (hc : c = .cashOut input) (hid : b.id = input.betId) (huser : b.userId = input.userId)
    (hlock : (.bet b.id, .exclusive) ∈ f.held) (hb : s.bet b.id = some b)
    (hr : s.round b.roundId = some r) (hgame : r.game = .CRASH)
    (hstarted : r.startedAt = some startedAt) (hpoint : r.crashPointBp = some crash)
    (hbefore : multiplierAtElapsed (now - startedAt) < crash)
    (hf : rowsOn .bets f.pending = []) :
    wp database (outcomes config).eased (betTerms c)
      (payCashOut input b game now (multiplierAtElapsed (now - startedAt))) f s
      (EndsClosing config c none (fun _ => True) f s) := by
  refine wp_bind.2 (wp_check ?_)
  cases hraw : basisPointsFromRaw (multiplierAtElapsed (now - startedAt)) with
  | error e => exact endsClosing_error
  | ok multiplier =>
    obtain rfl := basisPointsFromRaw_ok hraw
    refine onValue_ok (wp_bind.2 (wp_check ?_))
    cases hpayout : b.stakeMinor.applyMultiplier (multiplierAtElapsed (now - startedAt)) with
    | error e => exact endsClosing_error
    | ok payout =>
      refine onValue_ok (wp_bind.2 (wp_check ?_))
      cases Money.sub payout b.stakeMinor with
      | error e => exact endsClosing_error
      | ok profit =>
        refine onValue_ok (wp_closeBet (fun updated => ?_) (.nil hf) hlock hb trivial hr
          (.cashedOut hc hid huser hgame hstarted hpoint hbefore hpayout))
        cases updated with
        | none => trivial
        | some updated =>
          exact Within.bind getWalletAccountId_touches fun _ =>
            Within.bind (postEnlisted_touches.more (by simp)) fun _ =>
              Within.bind Within.select fun _ => Within.bind getBalance_touches fun _ =>
                Within.bind (publish_touches.more (by simp)) fun _ =>
                  Within.bind (publish_touches.more (by simp)) fun _ =>
                    Within.bind (publish_touches.more (by simp)) fun _ => trivial

/-- It is paid only before the crash point, on a crash round that has started. -/
theorem cashOutActive_paid {input : CashOutInput} (hc : c = .cashOut input)
    (hid : b.id = input.betId) (huser : b.userId = input.userId)
    (hlock : (.bet b.id, .exclusive) ∈ f.held) (hb : s.bet b.id = some b) (hf : f.pending = []) :
    wp database (outcomes config).eased (betTerms c) (cashOutActive input b) f s
      (BetEnds config c) := by
  have hO := outcomes_overlay config c
  refine wp_bind.2 (wp_selectOnward fun f₁ s₁ h₁ => onValue_ok ?_)
  have hf₁ : f₁.pending = [] := h₁.still.trans hf
  cases hround : (f₁.view database s₁).round b.roundId with
  | none => exact wp_throw endsReady_error
  | some round =>
    rw [round_view (by rw [hf₁]; rfl)] at hround
    dsimp only
    split
    case h_2 => exact wp_throw endsReady_error
    case h_1 crash hgame hpoint =>
    split
    case h_2 => exact wp_throw endsReady_error
    case h_1 startedAt _ hstarted =>
    refine wp_bind.2 (wp_read fun x => onValue_ok ?_)
    split
    · exact wp_throw endsReady_error
    case isFalse hbefore =>
    have hrow : s₁.bet b.id = some b := Eq.trans (hO.kept h₁.rely hlock) hb
    refine wp_mono (fun res f' s' h => ?_) (payCashOut_paid hc hid huser (h₁.kept hlock) hrow
      hround hgame hstarted hpoint (not_le.1 hbefore) (by rw [hf₁]; rfl))
    exact fun a ha => (h a ha).2.ready fun _ hstatus => by cases hstatus

/-- Every bet that `cashOut` closes is its own, and is paid by the curve. -/
theorem cashOut_paid {input : CashOutInput} :
    wp database (outcomes config).eased (betTerms (.cashOut input)) (cashOut input) {} s
      fun _ _ _ => True := by
  have hO := outcomes_overlay config (.cashOut input)
  refine wp_betTransaction (wp_bind.2 (hO.selectForLock (.bet input.betId) (fun s row hrow => ?_)
    (fun f₁ s₁ h₁ _ => onValue_ok (wp_throw endsReady_error))
    fun f₁ s₁ b h₁ hlock hrow => onValue_ok ?_))
  · obtain ⟨hfound, -⟩ := Option.filter_eq_some_iff.1 hrow
    exact congrArg LockKey.bet (lookup_key hfound)
  · have hf₁ : f₁.pending = [] := h₁.still
    obtain ⟨hfound, howner⟩ := Option.filter_eq_some_iff.1 hrow
    rw [bet_view (by rw [hf₁]; rfl)] at hfound
    have hid : b.id = input.betId := lookup_key hfound
    rw [← hid] at hlock hfound
    dsimp only
    cases b.status with
    | ACTIVE => exact cashOutActive_paid rfl hid (by simpa using howner) hlock hfound hf₁
    | WON => exact wp_pure fun _ _ => BetReady.idle (by rw [hf₁]; rfl)
    | LOST => exact wp_throw endsReady_error
    | VOIDED => exact wp_throw endsReady_error

/-! ## Settling and voiding -/

section
variable (hengine : ∀ input, c ≠ .cashOut input) (h : Closing c outcome (· = roundId) f s)
  (hb : BetLocked roundId b f s) (hr : s.round roundId = some r)
include hengine h hb hr

/-- A bet that is settled as lost does not win on the pocket. -/
theorem settleLostBet_paid (houtcome : outcome = some .SETTLED)
    (hloses : r.game = .ROULETTE → b.winsAt (r.winningPocket.getD 0) = .ok none) :
    wp database (outcomes config).eased (betTerms c) (settleLostBet b) f s
      (EndsClosing config c outcome (· = roundId) f s) := by
  subst houtcome
  refine wp_bind.2 (wp_read fun x => onValue_ok (wp_closeBet (fun _ => ?_) h hb.locked hb.row hb.on
    (by rw [hb.on]; exact hr) (.lost hengine hloses)))
  exact Within.bind (postEnlisted_touches.more (by simp)) fun _ =>
    Within.bind getWalletAccountId_touches fun _ => publishBetOutcome_touches.more (by simp)

/-- A bet that is settled as won is paid by its odds. -/
theorem settleWonBet_paid {odds : ℤ} (houtcome : outcome = some .SETTLED)
    (hgame : r.game = .ROULETTE) (hwins : b.winsAt (r.winningPocket.getD 0) = .ok (some odds)) :
    wp database (outcomes config).eased (betTerms c) (settleWonBet b odds) f s
      (EndsClosing config c outcome (· = roundId) f s) := by
  subst houtcome
  refine wp_bind.2 (wp_check ?_)
  cases hraw : basisPointsFromRaw odds with
  | error e => exact endsClosing_error
  | ok multiplier =>
    obtain rfl := basisPointsFromRaw_ok hraw
    refine onValue_ok (wp_bind.2 (wp_check ?_))
    cases hpayout : b.stakeMinor.applyMultiplier multiplier with
    | error e => exact endsClosing_error
    | ok payout =>
      refine onValue_ok (wp_bind.2 (wp_check ?_))
      cases Money.sub payout b.stakeMinor with
      | error e => exact endsClosing_error
      | ok profit =>
        refine onValue_ok (wp_bind.2 (wp_read fun x => onValue_ok (wp_closeBet (fun _ => ?_) h
          hb.locked hb.row hb.on (by rw [hb.on]; exact hr) (.won hengine hgame hwins hpayout))))
        exact Within.bind getWalletAccountId_touches fun _ =>
          Within.bind (postEnlisted_touches.more (by simp)) fun _ =>
            Within.bind Within.select fun _ => Within.bind Within.select fun _ =>
              Within.bind (publish_touches.more (by simp)) fun _ =>
                publishBetOutcome_touches.more (by simp)

/-- Each bet of the round is settled by its game. -/
theorem settleBet_paid (houtcome : outcome = some .SETTLED) :
    wp database (outcomes config).eased (betTerms c) (settleBet r b) f s
      (EndsClosing config c outcome (· = roundId) f s) := by
  unfold settleBet
  cases hgame : r.game with
  | CRASH =>
    refine settleLostBet_paid hengine h hb hr houtcome fun hroulette => ?_
    rw [hgame] at hroulette
    cases hroulette
  | ROULETTE =>
    refine wp_bind.2 (wp_check ?_)
    cases hwins : b.winsAt (r.winningPocket.getD 0) with
    | error e => exact endsClosing_error
    | ok won =>
      cases won with
      | none => exact settleLostBet_paid hengine h hb hr houtcome fun _ => hwins
      | some odds => exact settleWonBet_paid hengine h hb hr houtcome hgame hwins

/-- A bet that is refunded gets its stake back. -/
theorem refundBet_paid (houtcome : outcome = some .VOIDED) :
    wp database (outcomes config).eased (betTerms c) (refundBet b) f s
      (EndsClosing config c outcome (· = roundId) f s) := by
  subst houtcome
  refine wp_bind.2 (wp_read fun x => onValue_ok (wp_closeBet (fun _ => ?_) h hb.locked hb.row hb.on
    (by rw [hb.on]; exact hr) (.refunded hengine)))
  exact Within.bind getWalletAccountId_touches fun _ =>
    Within.bind (postEnlisted_touches.more (by simp)) fun _ =>
      publishBetOutcome_touches.more (by simp)

end

/-- A round that is locked is closed: its active bets one by one, and then the round itself. -/
theorem wp_closeRound (body : Bet → Action Unit) (from_ : RoundStatus → Bool)
    (u : Time → RoundUpdate) {status : RoundStatus}
    (hlock : (.round roundId, .exclusive) ∈ f.held) (hr : s.round roundId = some r)
    (hfrom : from_ r.status = true) (hu : ∀ now, (u now).status = status) (hf : f.pending = [])
    (hbody : ∀ b f' s', Closing c (some status) (· = roundId) f' s' → BetLocked roundId b f' s' →
      s'.round roundId = some r →
      wp database (outcomes config).eased (betTerms c) (body b) f' s'
        (EndsClosing config c (some status) (· = roundId) f' s')) :
    wp database (outcomes config).eased (betTerms c)
      (do
        let activeBets ← lockActiveBets roundId
        forEach body activeBets
        let x ← read
        let _ ← updateRoundWhere roundId from_ (u x.now)
        publish (.roundState roundId)) f s (BetEnds config c) := by
  have hO := outcomes_overlay config c
  have hR := hO.lax.regular
  refine wp_bind.2 (hO.lockActiveBets (by rw [hf]; rfl) fun found f₁ s₁ h₁ hfound => onValue_ok ?_)
  have hf₁ : f₁.pending = [] := h₁.still.trans hf
  -- the bets are closed one after the other; the round stays as it was locked
  have hrow : ∀ {f' s'}, Later (outcomes config).eased f s f' s' → s'.round roundId = some r :=
    fun hl => (hO.kept hl.rely hlock).1.trans hr
  refine wp_bind.2 (wp_forEach (fun _ f' s' =>
    Onward (outcomes config).eased (fun w => w.table ∈ closingTables) f₁ s₁ f' s' ∧
      Closing c (some status) (· = roundId) f' s') []
    ⟨.refl hR h₁.rely.inv, .nil (by rw [hf₁]; rfl)⟩ (fun done b after hsplit f₂ s₂ h₂ => ?_)
    fun f₂ s₂ h₂ => onValue_ok ?_)
  · obtain ⟨hl, hclosing⟩ := h₂
    have hb : b ∈ found := by
      rw [List.nil_append] at hsplit
      exact hsplit ▸ List.mem_append_right _ List.mem_cons_self
    refine wp_mono (fun res f₃ s₃ h₃ => ?_) (hbody b f₂ s₂ hclosing
      (hO.betLocked (hfound b hb) hl.toLater) (hrow (h₁.toLater.trans hR hl.toLater)))
    cases res with
    | error e => exact endsReady_error
    | ok _ => exact ⟨hl.trans hR (h₃ _ rfl).1, (h₃ _ rfl).2⟩
  · obtain ⟨hl, hclosing⟩ := h₂
    have hf₂ : rowsOn .rounds f₂.pending = [] := by
      rw [rowsOn_onward hl (by simp), hf₁]
      rfl
    refine wp_bind.2 (wp_read fun x => onValue_ok (wp_bind.2 (hO.updateRoundWhere hf₂
      (fun f₃ s₃ h₃ hnone => ?_) (fun f₃ s₃ row h₃ _ _ _ _ _ hpending => onValue_ok ?_)
      fun _ _ _ => endsReady_error)))
    · have hfound := hrow (h₁.toLater.trans hR (hl.toLater.trans hR h₃.toLater))
      rw [hfound, Option.filter_some, if_pos hfrom] at hnone
      cases hnone
    · refine wp_lastBetPart [.notifications] ?_ h₃.rely.inv publish_touches (by simp)
      refine (hclosing.later h₃ ?_).ready fun status' hstatus id hid => ?_
      · rw [hpending, rowsOn_append]
        exact List.append_nil _
      · cases hstatus
        exact ⟨u x.now, by rw [hpending, hid]; simp, hu x.now⟩

section
variable (hengine : ∀ input, c ≠ .cashOut input) (hf : f.pending = [])
include hengine hf

/-- Every bet that `settleRound` closes is on its round, and is paid by the outcome. -/
theorem settleRound_paid :
    wp database (outcomes config).eased (betTerms c) (settleRound roundId) f s
      fun _ _ _ => True := by
  have hO := outcomes_overlay config c
  refine wp_betTransaction (wp_bind.2 (hO.selectForLock (.round roundId)
    (fun _ _ hrow => congrArg LockKey.round (lookup_key hrow))
    (fun f₁ s₁ h₁ _ => onValue_ok (wp_pure fun _ _ => BetReady.idle (by rw [h₁.still, hf]; rfl)))
    fun f₁ s₁ row h₁ hlock hrow => onValue_ok ?_))
  have hf₁ : f₁.pending = [] := h₁.still.trans hf
  rw [round_view (by rw [hf₁]; rfl)] at hrow
  dsimp only
  split
  · exact wp_pure fun _ _ => BetReady.idle (by rw [hf₁]; rfl)
  case isFalse hstatus =>
    exact wp_closeRound (settleBet row) (· == .RESOLVED)
      (fun now => { status := .SETTLED, settledAt := some now }) hlock hrow
      (by simpa using hstatus) (fun _ => rfl) hf₁ fun b f₂ s₂ hclosing hb hr => settleBet_paid hengine hclosing hb hr rfl

/-- Every bet that `voidRound` closes is on its round, and is refunded. -/
theorem voidRound_paid :
    wp database (outcomes config).eased (betTerms c) (voidRound roundId) f s
      fun _ _ _ => True := by
  have hO := outcomes_overlay config c
  refine wp_betTransaction (wp_bind.2 (hO.selectForLock (.round roundId)
    (fun _ _ hrow => congrArg LockKey.round (lookup_key hrow))
    (fun f₁ s₁ h₁ _ => onValue_ok (wp_pure fun _ _ => BetReady.idle (by rw [h₁.still, hf]; rfl)))
    fun f₁ s₁ row h₁ hlock hrow => onValue_ok ?_))
  have hf₁ : f₁.pending = [] := h₁.still.trans hf
  rw [round_view (by rw [hf₁]; rfl)] at hrow
  dsimp only
  split
  · exact wp_pure fun _ _ => BetReady.idle (by rw [hf₁]; rfl)
  · exact wp_closeRound refundBet (fun _ => true)
      (fun now => { status := .VOIDED, settledAt := some now, seedRevealed := some row.seed })
      hlock hrow rfl (fun _ => rfl) hf₁ fun b f₂ s₂ hclosing hb hr => refundBet_paid hengine hclosing hb hr rfl

end

/-! ## The whole system -/

/-- Opening a round closes no bet. -/
theorem openRoundIfDue_paid {game : GameKind} (hf : f.pending = []) :
    wp database (outcomes config).eased (betTerms c) (openRoundIfDue config crypto game) f s
      fun _ _ _ => True :=
  idle_paid (openRoundIfDue_writes (fun _ => List.nil_subset _) (fun _ => by simp [Write.table])
    (fun _ => by simp [Write.table]) (fun _ => by simp [Write.table]) rfl) hf

/-- Locking a round closes no bet. -/
theorem lockRound_paid (hf : f.pending = []) :
    wp database (outcomes config).eased (betTerms c) (lockRound roundId) f s fun _ _ _ => True :=
  idle_paid (lockRound_writes (fun _ => List.nil_subset _) (fun _ => by simp [Write.table])
    fun _ _ => by simp [Write.table]) hf

/-- Starting a round closes no bet. -/
theorem startRound_paid (hf : f.pending = []) :
    wp database (outcomes config).eased (betTerms c) (startRound roundId) f s fun _ _ _ => True :=
  idle_paid (startRound_writes (fun _ => List.nil_subset _) (fun _ => by simp [Write.table])
    fun _ _ => by simp [Write.table]) hf

/-- Resolving a round closes no bet. -/
theorem resolveRound_paid (hf : f.pending = []) :
    wp database (outcomes config).eased (betTerms c) (resolveRound roundId) f s
      fun _ _ _ => True :=
  idle_paid (resolveRound_writes (fun _ => List.nil_subset _) (fun _ => by simp [Write.table])
    fun _ _ => by simp [Write.table]) hf

/-- Whatever a tick does to the live round, the bets that it closes are paid rightly. -/
theorem tickGame_paid {game : GameKind} (hengine : ∀ input, c ≠ .cashOut input)
    (hf : f.pending = []) :
    wp database (outcomes config).eased (betTerms c) (tickGame config crypto game) f s
      fun _ _ _ => True := by
  refine wp_bind.2 (wp_selectOnward fun f₁ s₁ h₁ => onValue_ok ?_)
  have hf₁ : f₁.pending = [] := h₁.still.trans hf
  cases liveRoundOf game (f₁.view database s₁) with
  | none =>
    refine wp_bind.2 (wp_mono (fun r _ _ _ => ?_) (openRoundIfDue_paid hf₁))
    cases r with
    | ok id => trivial
    | error e => trivial
  | some live =>
    refine wp_bind.2 (wp_read fun x => onValue_ok ?_)
    dsimp only
    cases live.status with
    | OPEN =>
      dsimp only
      split
      · exact lockRound_paid hf₁
      · exact wp_pure trivial
    | LOCKED => exact startRound_paid hf₁
    | RUNNING =>
      cases live.startedAt with
      | none => exact wp_pure trivial
      | some startedAt =>
        dsimp only
        split
        · exact voidRound_paid hengine hf₁
        · split
          · exact resolveRound_paid hf₁
          · exact wp_pure trivial
    | RESOLVED => exact settleRound_paid hengine hf₁
    | SETTLED => exact wp_pure trivial
    | VOIDED => exact wp_pure trivial

/-- An answer that is put into a reply changes nothing. -/
theorem reply_paid {g : α → Reply} {p : Action α}
    (hp : wp database (outcomes config).eased (betTerms c) p f s fun _ _ _ => True) :
    wp database (outcomes config).eased (betTerms c) (g <$> p) f s fun _ _ _ => True :=
  wp_map (wp_mono (fun _ _ _ _ => trivial) hp)

/-- Every call closes bets as its round says. -/
theorem call_paid (c : Call) :
    wp database (outcomes config).eased (betTerms c) (program config crypto c) {} s
      fun _ _ _ => True := by
  cases c with
  | register dto =>
    exact idle_paid (Writes.imp (fun _ hw => tables_ne hw (by simp))
      (Writes.map register_writes)) rfl
  | login dto =>
    exact idle_paid (Writes.map (login_writes (fun _ => List.nil_subset _)
      fun _ => by simp [Write.table])) rfl
  | refresh rawToken =>
    exact idle_paid (Writes.map (refresh_writes (fun _ => List.nil_subset _)
      (fun _ => by simp [Write.table]) fun _ _ => by simp [Write.table])) rfl
  | logout rawToken =>
    exact idle_paid (Writes.map (logout_writes (fun _ => List.nil_subset _)
      fun _ _ => by simp [Write.table])) rfl
  | placeBet input => exact reply_paid (placeBet_paid rfl)
  | cashOut input => exact reply_paid cashOut_paid
  | openRoundIfDue game => exact reply_paid (openRoundIfDue_paid rfl)
  | lockRound roundId => exact reply_paid (lockRound_paid rfl)
  | startRound roundId => exact reply_paid (startRound_paid rfl)
  | resolveRound roundId => exact reply_paid (resolveRound_paid rfl)
  | settleRound roundId => exact reply_paid (settleRound_paid (by simp) rfl)
  | voidRound roundId => exact reply_paid (voidRound_paid (by simp) rfl)
  | tickGame game => exact reply_paid (tickGame_paid (by simp) rfl)

/-- The outcomes as a layer on the lifecycle: every call keeps its terms. -/
theorem outcomes_layer : Layer database (lifecycle config) Outcomes (fun _ _ => True)
    (program config crypto) (fun c => (terms config c).upon roundTerms) betTerms
    fun _ _ _ _ _ => True where
  refl _ := trivial
  trans _ _ := trivial
  commits hs hout h h' := by
    obtain ⟨es, rfl, hdone, -⟩ := h.1
    exact ⟨hout.after hs.1 hs.2 hdone h.2 h', trivial⟩
  draws {_ s row} _ hout hdraws _ := by
    obtain ⟨hsame, hrounds⟩ := sameBooks_draw hdraws.1
    exact ⟨hout.of_eq hsame.bets hrounds, trivial⟩
  stable _ _ _ _ _ _ _ _ := trivial
  lost _ _ _ _ := trivial
  start _ c _ _ _ _ _ := call_paid c

/-- Every call keeps the books, the lifecycles and the outcomes. -/
theorem outcomes_verified : Verified database (outcomes config) (program config crypto)
    (fun c => ((terms config c).upon roundTerms).upon (betTerms c))
    fun _ c r f s => (c.answer r f s ∧ True) ∧ True :=
  lifecycle_verified.upon outcomes_layer

/-- The terms ask nothing of the circumstances of a statement. -/
theorem admits_paid (w : System) (e : Event Inputs Call) :
    Admits (fun c => ((terms config c).upon roundTerms).upon (betTerms c)) w e := by
  cases e with
  | start c => exact ⟨⟨trivial, trivial⟩, trivial⟩
  | run i x => exact fun _ _ => ⟨⟨trivial, trivial⟩, trivial⟩
  | kill i => trivial

/-- In every world reached every bet is paid out as its round says. -/
theorem reachable_paid {w : System} (h : Reaches config crypto w) :
    w.Sound database (outcomes config)
      (fun c => ((terms config c).upon roundTerms).upon (betTerms c))
      fun _ c r f s => (c.answer r f s ∧ True) ∧ True :=
  (World.Sound.run outcomes_verified (fun w e _ => admits_paid w e) h
    (.idle ⟨⟨migrated_consistent config, migrated_lifecycle⟩, List.forall_mem_nil _⟩)).1

end

end Tessera
