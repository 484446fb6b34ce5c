import Tessera.Rounds.Payouts
import Tessera.Rounds.Voiding
import Tessera.Rounds.Wheel

/-!
# Settling a round

`settleRound` with nobody else at work.  Every active bet of a resolved round is won or lost, in one
transaction, whatever the mix and in whatever order the scan returns them; a single bet that could
not be settled would stop the round.

* `Round.oddsOf`, `Round.pays`, `Settles` — what a bet of a round is settled as;
* `settleBet_eq` — the engine comes to the same for every bet that was accepted;
* `accepts_settlement` — when the database accepts the posting of a bet;
* `Cleared.settle`, `Cleared.settleAll` — one bet of the loop, and all of them;
* `Db.Settleable`, `Settled` — amounts that can be settled, and what then has changed;
* `settleRound_reachable` — what becomes of every round.

Source: `src/src/rounds/round-engine.service.ts` `settleRound`, `settleRouletteBet`,
`settleLostBet`, `publishBetOutcome`.
-/

namespace Tessera

open Relational Transactions Transactions.Program

/-! ## What a bet is settled as -/

/-- The odds at which a bet of a round is won, unless it is lost. -/
def Round.oddsOf (r : Round) (b : Bet) : Option ℤ :=
  match r.game with
  | .CRASH => none
  | .ROULETTE =>
    match b.winsAt (r.winningPocket.getD 0) with
    | .ok odds => odds
    | .error _ => none

/-- What a bet of a round pays its owner. -/
def Round.pays (r : Round) (b : Bet) : ℤ :=
  match r.oddsOf b with
  | some odds => b.stakeMinor.minor * odds / basisPointsOne
  | none => 0

/-- What the engine sets when it settles a bet. -/
def Round.settling (r : Round) (b : Bet) (payout : Money) (now : Time) : BetUpdate :=
  match r.oddsOf b with
  | some odds =>
    { status := .WON, settledMultiplierBp := some odds, payoutMinor := payout, settledAt := now }
  | none => { status := .LOST, payoutMinor := payout, settledAt := now }

/-- How a bet is closed when its round is settled. -/
def Settles (r : Round) (b : Bet) (u : BetUpdate) : Prop :=
  ∃ payout now, payout.minor = r.pays b ∧ u = r.settling b payout now

section
variable {r : Round} {b : Bet}

/-- A bet that was accepted wins at the odds of its type, or loses. -/
theorem Round.Sound.winsAt (hr : r.Sound) (hpriced : b.Priced r.game) (hgame : r.game = .ROULETTE) :
    b.winsAt (r.winningPocket.getD 0) = .ok (r.oddsOf b) ∧
      ∀ odds, r.oddsOf b = some odds → ∃ type, odds = rouletteOddsBp type := by
  obtain ⟨pocket, hpocket, hrange⟩ := hr.pocket hgame
  rw [hgame] at hpriced
  obtain ⟨type, hbacks⟩ := hpriced
  obtain ⟨wins, hwins⟩ := hbacks.selectionWins hrange
  have hat : b.winsAt (r.winningPocket.getD 0) =
      .ok (if wins then some (rouletteOddsBp type) else none) := by
    rw [hpocket, Option.getD_some]
    exact hbacks.winsAt hwins
  have hodds : r.oddsOf b = if wins then some (rouletteOddsBp type) else none := by
    unfold Round.oddsOf
    rw [hgame, hat]
  refine ⟨hat.trans (congrArg Except.ok hodds.symm), fun odds h => ⟨type, ?_⟩⟩
  rw [hodds] at h
  split at h
  · exact (Option.some.inj h).symm
  · cases h

/-- The odds of a bet are those of its type. -/
theorem Round.Sound.odds_type (hr : r.Sound) (hpriced : b.Priced r.game) {odds : ℤ}
    (h : r.oddsOf b = some odds) : ∃ type, odds = rouletteOddsBp type := by
  by_cases hgame : r.game = .ROULETTE
  · exact (hr.winsAt hpriced hgame).2 odds h
  · have hcrash : r.game = .CRASH := by
      cases hg : r.game with
      | CRASH => rfl
      | ROULETTE => exact absurd hg hgame
    unfold Round.oddsOf at h
    rw [hcrash] at h
    cases h

/-- The engine pays a bet that wins and writes off one that loses. -/
theorem settleBet_eq (hr : r.Sound) (hpriced : b.Priced r.game) :
    settleBet r b =
      match r.oddsOf b with
      | some odds => settleWonBet b odds
      | none => settleLostBet b := by
  unfold settleBet
  cases hgame : r.game with
  | CRASH =>
    unfold Round.oddsOf
    rw [hgame]
  | ROULETTE =>
    unfold settleRouletteBet
    rw [(hr.winsAt hpriced hgame).1]
    cases r.oddsOf b <;> rfl

/-- A bet pays nothing, or more than its stake and up to 36 times as much. -/
theorem Round.Sound.pays_cases (hr : r.Sound) (hpriced : b.Priced r.game)
    (hstake : 0 < b.stakeMinor.minor) :
    r.pays b = 0 ∨ b.stakeMinor.minor < r.pays b ∧ r.pays b ≤ b.stakeMinor.minor * 36 := by
  unfold Round.pays
  cases hodds : r.oddsOf b with
  | none => exact .inl rfl
  | some odds =>
    obtain ⟨type, rfl⟩ := hr.odds_type hpriced hodds
    obtain ⟨hmore, hmost⟩ := type.pays_mem
    have hamount : b.stakeMinor.minor * rouletteOddsBp type / basisPointsOne =
        b.stakeMinor.minor * type.pays := by
      rw [rouletteOddsBp_eq, ← mul_assoc]
      exact Int.mul_ediv_cancel _ (by decide)
    simp only [hamount]
    refine .inr ⟨?_, mul_le_mul_of_nonneg_left hmost hstake.le⟩
    have hlt := mul_lt_mul_of_pos_left hmore hstake
    rwa [mul_one] at hlt

/-- No payout is negative. -/
theorem Round.Sound.pays_nonneg (hr : r.Sound) (hpriced : b.Priced r.game)
    (hstake : 0 < b.stakeMinor.minor) : 0 ≤ r.pays b := by
  rcases hr.pays_cases hpriced hstake with h | ⟨h, -⟩ <;> omega

/-- The row of a bet that is settled satisfies its constraints. -/
theorem Bet.settling_violated (hr : r.Sound) (hpriced : b.Priced r.game) (hb : b.violated = none)
    (hactive : b.status = .ACTIVE) {payout : Money} (hpayout : payout.minor = r.pays b)
    (now : Time) : ((r.settling b payout now).row b).violated = none := by
  have hnonneg := hr.pays_nonneg hpriced (Bet.stake_pos hb)
  have hall := firstViolated_none hb
  simp only [List.forall_mem_cons] at hall
  obtain ⟨htogether, -, -, hoddsBp, -, hselection, hstake, -⟩ := hall
  have hnone : b.settledMultiplierBp = none := by simpa [hactive] using htogether
  unfold Bet.violated
  rw [firstViolated_eq_none]
  simp only [List.forall_mem_cons]
  unfold Round.settling
  unfold Round.pays at hpayout hnonneg
  cases hodds : r.oddsOf b with
  | some odds =>
    obtain ⟨type, rfl⟩ := hr.odds_type hpriced hodds
    have hge : (10000 : ℤ) ≤ rouletteOddsBp type := (rouletteOddsBp_ge type).1
    rw [hodds] at hpayout hnonneg
    refine ⟨?_, ?_, ?_, hoddsBp, ?_, hselection, hstake, List.forall_mem_nil _⟩
    · simp [BetUpdate.row]
    · simpa [BetUpdate.row] using hge
    · simp [BetUpdate.row]
    · simp only [BetUpdate.row, Option.all_some, decide_eq_true_eq]
      omega
  | none =>
    rw [hodds] at hpayout
    have hzero : payout.minor = 0 := hpayout
    refine ⟨?_, ?_, ?_, hoddsBp, ?_, hselection, hstake, List.forall_mem_nil _⟩
    · simp [BetUpdate.row, hnone]
    · simp [BetUpdate.row, hnone]
    · simp [BetUpdate.row, hzero]
    · simp [BetUpdate.row, hzero]

end

/-! ## The posting of a bet -/

section
variable {config : Config} {v : Db} {b : Bet} {w : Uuid}

/-- What the posting of a bet that is settled moves. -/
def SettlesNet (w : Uuid) (stake payout : ℤ) (postings : List Posting) : Prop :=
  ∀ i, net postings i =
    (if i = w then payout else 0) - (if i = escrowId then stake else 0) +
      (if i = houseId then stake - payout else 0)

/-- A wallet is neither escrow nor the house. -/
theorem wallet_ne (hv : Consistent config v) (hw : v.walletOf b.userId = some w) :
    w ≠ escrowId ∧ w ≠ houseId := by
  have hgt := hv.housed.wallet_gt hw
  constructor
  · rintro rfl
    exact absurd hgt (by decide)
  · rintro rfl
    exact absurd hgt (by decide)

/-- The database accepts the posting of a bet that is settled, if the wallet and the house keep
balances that fit their column. -/
theorem accepts_settlement (hv : Consistent config v) (hranged : Ranged v)
    (hb : v.bet b.id = some b) (hactive : b.status = .ACTIVE)
    (hw : v.walletOf b.userId = some w) {payout : ℤ} {postings : List Posting}
    (hamount : ∀ p ∈ postings, p.amount.minor ≠ 0)
    (hon : ∀ p ∈ postings, p.accountId = w ∨ p.accountId = escrowId ∨ p.accountId = houseId)
    (hsign : ∀ id, OneSign (legsOf postings id))
    (hnet : SettlesNet w b.stakeMinor.minor payout postings) (hpayout : 0 ≤ payout)
    (hwallet : inBigint (v.balanceOf w + payout) = true)
    (hhouse : inBigint (v.balanceOf houseId + (b.stakeMinor.minor - payout)) = true) :
    Accepts v postings := by
  have hstake : 0 < b.stakeMinor.minor := (hv.fits b (Db.bet_mem hb)).stake
  have hle := hv.stake_le_escrow hb hactive
  obtain ⟨hescrow', hhouse'⟩ := wallet_ne hv hw
  have hsystem : houseId ≠ escrowId := by decide
  have hnow := hv.now_fits hranged
  obtain ⟨a, ha, rfl⟩ := Db.walletOf_eq_some.1 hw
  have haccount := hv.keyed.wallet_account ha
  refine accepts_of_fits hnow hamount (fun p hp => ?_) hsign fun p hp => ?_
  · rcases hon p hp with h | h | h
    · rw [h, haccount]
      exact ⟨rfl, hv.keyed.wallet_row hw⟩
    · rw [h]
      exact ⟨hv.housed.system_account.2.1, hv.system_row.2.1⟩
    · rw [h]
      exact ⟨hv.housed.system_account.2.2, hv.system_row.2.2⟩
  · rcases hon p hp with h | h | h
    · rw [h, hnet, if_pos rfl, if_neg hescrow', if_neg hhouse', sub_zero, add_zero]
      refine ⟨hwallet, fun a' ha' hkind => ?_⟩
      have hpos := (hnow a.id).funded a' ha' hkind
      omega
    · rw [h, hnet, if_neg hescrow'.symm, if_pos rfl, if_neg hsystem.symm]
      have hrange := (hnow escrowId).range
      unfold inBigint at hrange
      rw [decide_eq_true_eq] at hrange
      refine ⟨?_, fun _ _ _ => by omega⟩
      unfold inBigint
      rw [decide_eq_true_eq]
      omega
    · rw [h, hnet, if_neg hhouse'.symm, if_neg hsystem, if_pos rfl, sub_zero, zero_add]
      refine ⟨hhouse, fun a' ha' hkind => ?_⟩
      rw [hv.housed.house_kind ha'] at hkind
      cases hkind

/-! ### A bet that is lost -/

/-- The legs of a bet that is lost are those of a refund to the house. -/
def lostPostings (stake : Money) : List Posting := refundPostings houseId stake

/-- A lost stake goes to the house. -/
theorem net_lost (w : Uuid) (stake : Money) : SettlesNet w stake.minor 0 (lostPostings stake) := by
  intro i
  rw [lostPostings, net_refund]
  split_ifs <;> omega

/-- Its postings balance. -/
theorem lost_balanced {stake : Money} (hpos : 0 < stake.minor) {reference : Option Reference} :
    assertBalanced ⟨.BET_LOST, lostPostings stake, reference⟩ = .ok () :=
  (assertBalanced_iff _).2
    ((assertBalanced_iff _).1 (@refund_balanced houseId stake hpos reference))

/-- The balances accept it, if the house has room. -/
theorem lost_accepts (hv : Consistent config v) (hranged : Ranged v)
    (hb : v.bet b.id = some b) (hactive : b.status = .ACTIVE) (hw : v.walletOf b.userId = some w)
    (hhouse : inBigint (v.balanceOf houseId + b.stakeMinor.minor) = true) :
    Accepts v (lostPostings b.stakeMinor) := by
  have hstake : 0 < b.stakeMinor.minor := (hv.fits b (Db.bet_mem hb)).stake
  have hsystem : houseId ≠ escrowId := by decide
  refine accepts_settlement hv hranged hb hactive hw ?_ ?_ (fun id => ?_) (net_lost w _) le_rfl
    ?_ ?_
  · simp only [lostPostings, refundPostings, List.forall_mem_cons, Money.negate_minor]
    exact ⟨by omega, by omega, List.forall_mem_nil _⟩
  · simp only [lostPostings, refundPostings, List.forall_mem_cons]
    exact ⟨.inr (.inl trivial), .inr (.inr trivial), List.forall_mem_nil _⟩
  · by_cases hid : id = escrowId
    · refine .inr fun n hn => ?_
      obtain ⟨p, hp, hpid, rfl⟩ := mem_legsOf.1 hn
      rcases List.mem_pair.1 hp with rfl | rfl
      · simp only [Money.negate_minor]
        omega
      · exact absurd (hpid.trans hid) hsystem
    · refine .inl fun n hn => ?_
      obtain ⟨p, hp, hpid, rfl⟩ := mem_legsOf.1 hn
      rcases List.mem_pair.1 hp with rfl | rfl
      · exact absurd hpid.symm hid
      · exact hstake.le
  · rw [add_zero]
    exact hranged w
  · rw [sub_zero]
    exact hhouse

/-! ### A bet that is won -/

/-- The legs of a win. -/
theorem mem_winPostings {stake profit : Money} {p : Posting} (hp : p ∈ winPostings w stake profit) :
    p = ⟨escrowId, stake.negate⟩ ∨ p = ⟨w, stake⟩ ∨
      0 < profit.minor ∧ (p = ⟨houseId, profit.negate⟩ ∨ p = ⟨w, profit⟩) := by
  unfold winPostings at hp
  rcases List.mem_append.1 hp with hp | hp
  · rcases List.mem_pair.1 hp with rfl | rfl
    · exact .inl rfl
    · exact .inr (.inl rfl)
  · split at hp
    case isTrue hpos => exact .inr (.inr ⟨Money.isPositive_iff.1 hpos, List.mem_pair.1 hp⟩)
    case isFalse => cases hp

/-- The sum of a win is exact. -/
theorem win_balanced {stake profit : Money} (hstake : 0 < stake.minor)
    {reference : Option Reference} :
    assertBalanced ⟨.BET_CASHOUT, winPostings w stake profit, reference⟩ = .ok () := by
  refine (assertBalanced_iff _).2 ⟨?_, ?_, fun p hp => ?_⟩
  · simp [winPostings]
  · refine (Js.sum_eq_zero_iff (amounts_safe _) fun k hk => Js.representable_of_le ?_).2 ?_
    · have hstake' := natAbs_amount_lt stake
      by_cases hpos : profit.isPositive = true
      · have hk' : k + 1 < 4 := by simpa [amounts, winPostings, hpos] using hk
        rcases k with _ | _ | _ | k <;> simp [amounts, winPostings, hpos] <;> omega
      · obtain rfl : k = 0 := by simpa [amounts, winPostings, hpos] using hk
        simp
    · unfold winPostings
      by_cases hpos : profit.isPositive = true <;> simp [amounts, hpos]
  · rcases mem_winPostings hp with rfl | rfl | ⟨hpos, rfl | rfl⟩ <;>
      simp only [Money.negate_minor] <;> omega

/-- The balances accept a win, if the wallet and the house have room. -/
theorem win_accepts (hv : Consistent config v) (hranged : Ranged v)
    (hb : v.bet b.id = some b) (hactive : b.status = .ACTIVE) (hw : v.walletOf b.userId = some w)
    {payout profit : Money} (hprofit : profit.minor = payout.minor - b.stakeMinor.minor)
    (hle : b.stakeMinor.minor ≤ payout.minor)
    (hwallet : inBigint (v.balanceOf w + payout.minor) = true)
    (hhouse : inBigint (v.balanceOf houseId + (b.stakeMinor.minor - payout.minor)) = true) :
    Accepts v (winPostings w b.stakeMinor profit) := by
  have hstake : 0 < b.stakeMinor.minor := (hv.fits b (Db.bet_mem hb)).stake
  obtain ⟨hescrow', hhouse'⟩ := wallet_ne hv hw
  refine accepts_settlement hv hranged hb hactive hw (fun p hp => ?_) (fun p hp => ?_)
    (fun id => ?_) (net_win hprofit hle) (hstake.le.trans hle) hwallet hhouse
  · rcases mem_winPostings hp with rfl | rfl | ⟨hpos, rfl | rfl⟩ <;>
      simp only [Money.negate_minor] <;> omega
  · rcases mem_winPostings hp with rfl | rfl | ⟨-, rfl | rfl⟩ <;> simp
  · -- the wallet is credited, and the other two are debited
    by_cases hid : id = w
    · refine .inl fun n hn => ?_
      obtain ⟨p, hp, hpid, rfl⟩ := mem_legsOf.1 hn
      rcases mem_winPostings hp with rfl | rfl | ⟨hpos, rfl | rfl⟩
      · exact absurd (hpid.trans hid).symm hescrow'
      · exact hstake.le
      · exact absurd (hpid.trans hid).symm hhouse'
      · exact hpos.le
    · refine .inr fun n hn => ?_
      obtain ⟨p, hp, hpid, rfl⟩ := mem_legsOf.1 hn
      rcases mem_winPostings hp with rfl | rfl | ⟨hpos, rfl | rfl⟩
      · simp only [Money.negate_minor]
        omega
      · exact absurd hpid.symm hid
      · simp only [Money.negate_minor]
        omega
      · exact absurd hpid.symm hid

end

/-! ## One bet of the loop -/

/-- Where the loop of `settleRound` stands. -/
abbrev Clearing (config : Config) (r : Round) (s₀ : Db) (bets : List Bet) (es : List Effect)
    (f : Standing Db LockKey Write) (s : Db) : Prop :=
  Cleared config (Settles r) r.pays s₀ bets es f s

/-- The amounts with which one more bet can be settled. -/
structure Db.Affords (v : Db) (r : Round) (b : Bet) (w : Uuid) : Prop where
  stake : b.stakeMinor.minor * 36 ≤ Js.maxSafeInteger
  wallet : Js.isSafeInteger (v.balanceOf w + r.pays b) = true
  house : inBigint (v.balanceOf houseId + (b.stakeMinor.minor - r.pays b)) = true

/-- A safe integer fits its column. -/
theorem inBigint_of_safe {n : ℤ} (h : Js.isSafeInteger n = true) : inBigint n = true := by
  have hsafe := Js.isSafeInteger_iff.1 h
  have hmax : Js.maxSafeInteger < 2 ^ 63 := by decide
  unfold inBigint
  rw [decide_eq_true_eq]
  omega

section
variable {config : Config} {s₀ s s' : Db} {f f' : Standing Db LockKey Write}
variable {es : List Effect} {bets : List Bet} {r : Round} {b : Bet} {w : Uuid}

/-- The tables after everyone is told. -/
theorem applyAll_told (v : Db) {told : List Effect}
    (htold : ∀ e ∈ told, ∃ n, e = Effect.aside (.notify n)) :
    ∃ delivered, database.applyAll v (rowsOf told) = { v with delivered := delivered } := by
  induction told generalizing v with
  | nil => exact ⟨v.delivered, rfl⟩
  | cons e told ih =>
    obtain ⟨⟨n, rfl⟩, hrest⟩ := List.forall_mem_cons.1 htold
    rw [applyAll_rowsOf_cons]
    exact ih (v.apply (.notify n)) hrest

/-- The loop stands where it did when everyone is told. -/
theorem Cleared.told {told : List Effect} (C : Clearing config r s₀ bets es f s)
    (htold : ∀ e ∈ told, ∃ n, e = Effect.aside (.notify n))
    (W : Alone config s₀ (es ++ told) [] f' s') :
    Clearing config r s₀ bets (es ++ told) f' s' := by
  obtain ⟨delivered, hafter⟩ := applyAll_told (database.applyAll s₀ (rowsOf es)) htold
  have happly : database.applyAll s₀ (rowsOf (es ++ told)) =
      { database.applyAll s₀ (rowsOf es) with delivered := delivered } := by
    rw [rowsOf_append, Database.applyAll_append]
    exact hafter
  refine ⟨W, fun c hc => ?_, fun id hid => ?_, fun id => ?_, ?_, ?_⟩ <;> rw [happly]
  · exact C.closed c hc
  · exact C.others id hid
  · exact C.moved id
  · exact C.rounds
  · obtain ⟨husers, haccounts, hchains, htokens, hnonces⟩ := C.elsewhere
    exact ⟨husers, haccounts, hchains, htokens, hnonces⟩

/-- What settling a bet moves into the wallet of its owner. -/
theorem Bet.moves_wallet (h₀ : Consistent config s₀) (hw : s₀.walletOf b.userId = some w)
    (payout : ℤ) : b.moves s₀ payout w = payout := by
  obtain ⟨hescrow, hhouse⟩ := wallet_ne h₀ hw
  unfold Bet.moves
  rw [hw, if_pos rfl, if_neg hescrow, if_neg hhouse, sub_zero, add_zero]

/-- The balance of the owner once one more bet is settled. -/
theorem Cleared.balance_snoc {more : List Effect} (h₀ : Consistent config s₀)
    (C : Clearing config r s₀ bets es f s)
    (C' : Clearing config r s₀ (bets ++ [b]) more f' s') (hw : s₀.walletOf b.userId = some w) :
    (database.applyAll s₀ (rowsOf more)).balanceOf w =
      (database.applyAll s₀ (rowsOf es)).balanceOf w + r.pays b := by
  rw [C'.moved, C.moved, List.map_append, List.sum_append, List.map_singleton, List.sum_singleton,
    Bet.moves_wallet h₀ hw, add_assoc]

/-- One bet more is settled. -/
theorem Cleared.settled (C : Clearing config r s₀ bets es f s) (hb : s₀.bet b.id = some b)
    (hnew : b.id ∉ bets.map Bet.id) (hw : s₀.walletOf b.userId = some w) {u : BetUpdate}
    (hsettles : Settles r b u) {p : Posted} (W : Alone config s₀ (es ++ [.close b.id u p]) [] f' s')
    (haccepts : Accepts (database.applyAll s₀ (rowsOf es)) p.postings)
    (hnet : SettlesNet w b.stakeMinor.minor u.payoutMinor.minor p.postings) :
    Clearing config r s₀ (bets ++ [b]) (es ++ [.close b.id u p]) f' s' := by
  have hpay : u.payoutMinor.minor = r.pays b := by
    obtain ⟨payout, now, hpayout, rfl⟩ := hsettles
    unfold Round.settling
    cases r.oddsOf b <;> exact hpayout
  exact C.close W (by simp) hsettles hpay hb hnew hw
    (fun q hq => (((accepts_iff _ _).1 haccepts).2.1 q hq).2) hnet

/-- The outcome of a bet of the loop is announced. -/
theorem Cleared.publishBetOutcome (C : Clearing config r s₀ bets es f s) (hb : b ∈ bets)
    {Q : Post Db LockKey Write AppError Unit}
    (hok : ∀ es' f', Clearing config r s₀ bets es' f' s → Q (.ok ()) f' s)
    (herror : ∀ e f', Js.isSafeInteger ((database.applyAll s₀ (rowsOf es)).balanceOf w) ≠ true →
      Q (.error e) f' s) :
    ends database FreshId (publishBetOutcome b.id b.userId w) f s Q := by
  obtain ⟨u, -, hrow⟩ := C.closed b hb
  refine C.toAlone.publishBetOutcome (w := w) hrow (fun e₁ e₂ f₂ _ W₂ => ?_) herror
  refine hok _ f₂ (C.told (fun e he => ?_) W₂)
  rcases List.mem_pair.1 he with rfl | rfl
  · exact ⟨e₁, rfl⟩
  · exact ⟨e₂, rfl⟩

/-- A bet of the loop that is lost. -/
theorem Cleared.settleLost (h₀ : Consistent config s₀) (hs₀ : Constrained s₀) (hr : r.Sound)
    (hpriced : b.Priced r.game) (C : Clearing config r s₀ bets es f s)
    (hb : s₀.bet b.id = some b) (hactive : b.status = .ACTIVE) (hnew : b.id ∉ bets.map Bet.id)
    (hw : s₀.walletOf b.userId = some w) (hodds : r.oddsOf b = none)
    {Q : Post Db LockKey Write AppError Unit}
    (hok : ∀ es' f' s', Clearing config r s₀ (bets ++ [b]) es' f' s' → Q (.ok ()) f' s')
    (herror : ∀ e f' s', ¬(database.applyAll s₀ (rowsOf es)).Affords r b w → Alike s₀ s' →
      Q (.error e) f' s') :
    ends database FreshId (settleLostBet b) f s Q := by
  have hb' : (database.applyAll s₀ (rowsOf es)).bet b.id = some b := (C.others b.id hnew).trans hb
  have hw' := (C.walletOf b.userId).trans hw
  have hstake : 0 < b.stakeMinor.minor := (h₀.fits b (Db.bet_mem hb)).stake
  have hpays : Money.zero.minor = r.pays b := by
    unfold Round.pays
    rw [hodds]
    rfl
  have hsettling : ∀ now, r.settling b Money.zero now =
      { status := .LOST, payoutMinor := Money.zero, settledAt := now } := by
    intro now
    unfold Round.settling
    rw [hodds]
  have hnet : SettlesNet w b.stakeMinor.minor Money.zero.minor (lostPostings b.stakeMinor) :=
    net_lost w b.stakeMinor
  unfold Tessera.settleLostBet
  refine ends_bind.2 (ends_read fun x _ => thenEnds_ok ?_)
  have hchecks := Bet.settling_violated hr hpriced (hs₀.bets _ b hb) hactive hpays x.now
  rw [hsettling] at hchecks
  refine ends_bind.2 (C.toAlone.updateActiveBet hb' hactive hchecks fun f₁ W₁ => thenEnds_ok ?_)
  refine ends_bind.2 (Alone.closePost h₀ W₁ hb' hactive hw' le_rfl (by simp) rfl
    (lost_balanced hstake) (by simp [amounts, lostPostings, refundPostings]) hnet
    (fun posted p f₂ s₂ haccepts hpostings W₂ => thenEnds_ok ?_) fun e f' s' hrejects halike =>
      herror e f' s' (fun hfits => hrejects ?_) halike)
  · rw [← hpostings] at haccepts hnet
    have hsettles : Settles r b _ := ⟨Money.zero, x.now, hpays, (hsettling x.now).symm⟩
    have C₂ := C.settled hb hnew hw hsettles W₂ haccepts hnet
    refine ends_bind.2 (W₂.getWallet ((C₂.walletOf b.userId).trans hw) fun f₃ W₃ => thenEnds_ok ?_)
    have C₃ := C.settled hb hnew hw hsettles W₃ haccepts hnet
    refine C₃.publishBetOutcome (by simp) (fun es' f' C' => hok es' f' s₂ C') fun e f' hunsafe =>
      herror e f' s₂ (fun hfits => hunsafe ?_) C₃.alike
    rw [C.balance_snoc h₀ C₃ hw]
    exact hfits.wallet
  · have hhouse := hfits.house
    rw [← hpays] at hhouse
    exact lost_accepts (C.inv h₀) C.ranged hb' hactive hw' (by simpa using hhouse)

/-- A bet of the loop that is won. -/
theorem Cleared.settleWon (h₀ : Consistent config s₀) (hs₀ : Constrained s₀) (hr : r.Sound)
    (hpriced : b.Priced r.game) (C : Clearing config r s₀ bets es f s)
    (hb : s₀.bet b.id = some b) (hactive : b.status = .ACTIVE) (hnew : b.id ∉ bets.map Bet.id)
    (hw : s₀.walletOf b.userId = some w) {odds : ℤ} (hodds : r.oddsOf b = some odds)
    {Q : Post Db LockKey Write AppError Unit}
    (hok : ∀ es' f' s', Clearing config r s₀ (bets ++ [b]) es' f' s' → Q (.ok ()) f' s')
    (herror : ∀ e f' s', ¬(database.applyAll s₀ (rowsOf es)).Affords r b w → Alike s₀ s' →
      Q (.error e) f' s') :
    ends database FreshId (settleWonBet b odds) f s Q := by
  have hb' : (database.applyAll s₀ (rowsOf es)).bet b.id = some b := (C.others b.id hnew).trans hb
  have hw' := (C.walletOf b.userId).trans hw
  have hstake : 0 < b.stakeMinor.minor := (h₀.fits b (Db.bet_mem hb)).stake
  obtain ⟨type, rfl⟩ := hr.odds_type hpriced hodds
  unfold Tessera.settleWonBet
  rw [basisPointsFromRaw_odds]
  refine ends_bind.2 (ends_check (thenEnds_ok ?_))
  refine ends_bind.2 (ends_check ?_)
  cases hamount : b.stakeMinor.applyMultiplier (rouletteOddsBp type) with
  | error e =>
    refine herror e f s (fun hfits => ?_) C.alike
    obtain ⟨payout, hpayout, -⟩ := applyMultiplier_odds type hstake hfits.stake
    rw [hamount] at hpayout
    cases hpayout
  | ok payout =>
  have hpays : payout.minor = r.pays b := by
    unfold Round.pays
    rw [hodds]
    exact (applyMultiplier_ok hamount).1
  have hle := le_applyMultiplier (rouletteOddsBp_ge type).1 hamount
  obtain ⟨profit, hprofit, hdiff⟩ := Money.sub_win hstake hle
  have hsettling : ∀ now, r.settling b payout now =
      { status := .WON
        settledMultiplierBp := some (rouletteOddsBp type)
        payoutMinor := payout
        settledAt := now } := by
    intro now
    unfold Round.settling
    rw [hodds]
  have hnet : SettlesNet w b.stakeMinor.minor payout.minor (winPostings w b.stakeMinor profit) :=
    net_win hdiff hle
  refine thenEnds_ok (ends_bind.2 (ends_check ?_))
  rw [hprofit]
  refine thenEnds_ok (ends_bind.2 (ends_read fun x _ => thenEnds_ok ?_))
  have hchecks := Bet.settling_violated hr hpriced (hs₀.bets _ b hb) hactive hpays x.now
  rw [hsettling] at hchecks
  refine ends_bind.2 (C.toAlone.updateActiveBet hb' hactive hchecks fun f₁ W₁ => thenEnds_ok ?_)
  refine ends_bind.2 (W₁.getWallet hw' fun f₂ W₂ => thenEnds_ok ?_)
  refine ends_bind.2 (Alone.closePost h₀ W₂ hb' hactive hw' (hstake.le.trans hle) (by simp) rfl
    (win_balanced hstake) ?_ hnet
    (fun posted p f₃ s₃ haccepts hpostings W₃ => thenEnds_ok ?_) fun e f' s' hrejects halike =>
      herror e f' s' (fun hfits => hrejects ?_) halike)
  · by_cases hpos : profit.isPositive = true <;> simp [amounts, winPostings, hpos]
  · rw [← hpostings] at haccepts hnet
    have hsettles : Settles r b _ := ⟨payout, x.now, hpays, (hsettling x.now).symm⟩
    refine ends_bind.2 (W₃.select fun f₄ W₄ => thenEnds_ok ?_)
    refine ends_bind.2 (W₄.select fun f₅ W₅ => thenEnds_ok ?_)
    have C₅ := C.settled hb hnew hw hsettles W₅ haccepts hnet
    refine ends_bind.2 (W₅.publish fun f₆ W₆ => thenEnds_ok ?_)
    have C₆ := C₅.told (by simp) W₆
    refine C₆.publishBetOutcome (by simp) (fun es' f' C' => hok es' f' s₃ C') fun e f' hunsafe =>
      herror e f' s₃ (fun hfits => hunsafe ?_) C₆.alike
    rw [C.balance_snoc h₀ C₆ hw]
    exact hfits.wallet
  · have hwallet := hfits.wallet
    have hhouse := hfits.house
    rw [← hpays] at hwallet hhouse
    exact win_accepts (C.inv h₀) C.ranged hb' hactive hw' hdiff hle (inBigint_of_safe hwallet)
      hhouse

/-- A bet of the loop. -/
theorem Cleared.settle (h₀ : Consistent config s₀) (hs₀ : Constrained s₀) (hr : r.Sound)
    (hpriced : b.Priced r.game) (C : Clearing config r s₀ bets es f s)
    (hb : s₀.bet b.id = some b) (hactive : b.status = .ACTIVE) (hnew : b.id ∉ bets.map Bet.id)
    (hw : s₀.walletOf b.userId = some w) {Q : Post Db LockKey Write AppError Unit}
    (hok : ∀ es' f' s', Clearing config r s₀ (bets ++ [b]) es' f' s' → Q (.ok ()) f' s')
    (herror : ∀ e f' s', ¬(database.applyAll s₀ (rowsOf es)).Affords r b w → Alike s₀ s' →
      Q (.error e) f' s') :
    ends database FreshId (settleBet r b) f s Q := by
  rw [settleBet_eq hr hpriced]
  cases hodds : r.oddsOf b with
  | none => exact C.settleLost h₀ hs₀ hr hpriced hb hactive hnew hw hodds hok herror
  | some odds => exact C.settleWon h₀ hs₀ hr hpriced hb hactive hnew hw hodds hok herror

end

/-! ## All bets of the loop -/

/-- The balance of an account once the active bets of a round are settled. -/
def Db.settledBalance (s : Db) (r : Round) (id : Uuid) : ℤ :=
  s.balanceOf id + ((s.activeBets r.id).map fun b => b.moves s (r.pays b) id).sum

/-- The stakes and the balances are small enough for the round to be settled, in whatever order. -/
structure Db.Settleable (s : Db) (r : Round) : Prop where
  stakes : ∀ b ∈ s.activeBets r.id, b.stakeMinor.minor * 36 ≤ Js.maxSafeInteger
  wallets : ∀ b ∈ s.activeBets r.id, ∀ w, s.walletOf b.userId = some w →
    Js.isSafeInteger (s.settledBalance r w) = true
  lowest : inBigint (s.balanceOf houseId - ((s.activeBets r.id).map r.pays).sum) = true
  highest : inBigint (s.balanceOf houseId +
    ((s.activeBets r.id).map fun b => b.stakeMinor.minor).sum) = true

instance (s : Db) (r : Round) : Decidable (s.Settleable r) :=
  decidable_of_iff
    ((∀ b ∈ s.activeBets r.id, b.stakeMinor.minor * 36 ≤ Js.maxSafeInteger) ∧
      (∀ b ∈ s.activeBets r.id, (s.walletOf b.userId).all fun w =>
        Js.isSafeInteger (s.settledBalance r w)) ∧
      inBigint (s.balanceOf houseId - ((s.activeBets r.id).map r.pays).sum) = true ∧
      inBigint (s.balanceOf houseId +
        ((s.activeBets r.id).map fun b => b.stakeMinor.minor).sum) = true) <| by
    simp only [Option.all_eq_true]
    exact ⟨fun ⟨h₁, h₂, h₃, h₄⟩ => ⟨h₁, h₂, h₃, h₄⟩, fun ⟨h₁, h₂, h₃, h₄⟩ => ⟨h₁, h₂, h₃, h₄⟩⟩

/-- A part of a sum of amounts that are not negative. -/
theorem sum_map_left_le {α : Type} {f : α → ℤ} {l m : List α} (hf : ∀ a ∈ l ++ m, 0 ≤ f a) :
    0 ≤ (l.map f).sum ∧ (l.map f).sum ≤ ((l ++ m).map f).sum := by
  have hnonneg : ∀ k : List α, (∀ a ∈ k, 0 ≤ f a) → 0 ≤ (k.map f).sum := by
    intro k hk
    refine List.sum_nonneg fun n hn => ?_
    obtain ⟨a, ha, rfl⟩ := List.mem_map.1 hn
    exact hk a ha
  have hleft := hnonneg l fun a ha => hf a (List.mem_append_left m ha)
  have hright := hnonneg m fun a ha => hf a (List.mem_append_right l ha)
  rw [List.map_append, List.sum_append]
  omega

section
variable {config : Config} {s₀ s s' : Db} {f f' : Standing Db LockKey Write}
variable {es : List Effect} {closed after : List Bet} {r : Round} {b : Bet} {w : Uuid}

/-- What settling a bet moves into the house. -/
theorem Bet.moves_house (h₀ : Consistent config s₀) (hb : b ∈ s₀.bets) (payout : ℤ) :
    b.moves s₀ payout houseId = b.stakeMinor.minor - payout := by
  obtain ⟨w, hw⟩ := h₀.wallet_of_bet hb
  have hne := (wallet_ne h₀ hw).2
  unfold Bet.moves
  rw [hw, if_neg (by simpa using hne), if_neg (by decide), if_pos rfl]
  omega

/-- One more bet can be settled whenever all can, whatever has been settled before. -/
theorem Cleared.affords (h₀ : Consistent config s₀)
    (hpays : ∀ c ∈ closed ++ [b] ++ after, 0 ≤ r.pays c) (C : Clearing config r s₀ closed es f s)
    (hperm : (closed ++ [b] ++ after).Perm (s₀.activeBets r.id))
    (hw : s₀.walletOf b.userId = some w) (hfits : s₀.Settleable r) :
    (database.applyAll s₀ (rowsOf es)).Affords r b w := by
  have hmem : ∀ c ∈ closed ++ [b] ++ after, c ∈ s₀.activeBets r.id := fun c hc => hperm.mem_iff.1 hc
  have hbets : ∀ c ∈ closed ++ [b] ++ after, c ∈ s₀.bets :=
    fun c hc => (Db.mem_activeBets.1 (hmem c hc)).1
  have hb : b ∈ s₀.activeBets r.id := hmem b (by simp)
  have hclosed : ∀ id, (database.applyAll s₀ (rowsOf es)).balanceOf id + b.moves s₀ (r.pays b) id =
      s₀.balanceOf id + ((closed ++ [b]).map fun c => c.moves s₀ (r.pays c) id).sum := by
    intro id
    rw [C.moved, List.map_append, List.sum_append, List.map_singleton, List.sum_singleton,
      add_assoc]
  refine ⟨hfits.stakes b hb, ?_, ?_⟩
  · -- the wallet only grows
    have hsafe := hfits.wallets b hb w hw
    have hgrows := sum_map_left_le (f := fun c => c.moves s₀ (r.pays c) w) (l := closed ++ [b])
      (m := after) fun c hc => ?_
    · have hall := (hperm.map fun c => c.moves s₀ (r.pays c) w).sum_eq
      have hnonneg := h₀.wallet_nonneg hw
      have hnow := hclosed w
      rw [Bet.moves_wallet h₀ hw] at hnow
      unfold Db.settledBalance at hsafe
      rw [← hall, Js.isSafeInteger_iff] at hsafe
      rw [hnow, Js.isSafeInteger_iff]
      omega
    · obtain ⟨hescrow, hhouse⟩ := wallet_ne h₀ hw
      unfold Bet.moves
      rw [if_neg hescrow, if_neg hhouse, sub_zero, add_zero]
      split
      · exact hpays c hc
      · exact le_rfl
  · -- the house stays between paying every winner and keeping every stake
    have hmoves : ((closed ++ [b]).map fun c => c.moves s₀ (r.pays c) houseId).sum =
        ((closed ++ [b]).map fun c => c.stakeMinor.minor).sum -
          ((closed ++ [b]).map r.pays).sum := by
      rw [eq_sub_iff_add_eq, ← List.sum_map_add]
      refine congrArg List.sum (List.map_congr_left fun c hc => ?_)
      rw [Bet.moves_house h₀ (hbets c (List.mem_append_left after hc)), sub_add_cancel]
    have hstakes := sum_map_left_le (f := fun c : Bet => c.stakeMinor.minor) (l := closed ++ [b])
      (m := after) fun c hc => (h₀.fits c (hbets c hc)).stake.le
    have hpaid := sum_map_left_le (f := r.pays) (l := closed ++ [b]) (m := after) hpays
    have hallStakes := (hperm.map fun c : Bet => c.stakeMinor.minor).sum_eq
    have hallPaid := (hperm.map r.pays).sum_eq
    have hnow := hclosed houseId
    rw [Bet.moves_house h₀ (hbets b (by simp)), hmoves] at hnow
    have hlowest := hfits.lowest
    have hhighest := hfits.highest
    rw [hnow]
    unfold inBigint at hlowest hhighest ⊢
    rw [decide_eq_true_eq] at hlowest hhighest ⊢
    omega

/-- The bets of a round are settled one by one. -/
theorem Cleared.settleAll (h₀ : Consistent config s₀) (hs₀ : Constrained s₀) (hr : r.Sound)
    {bets : List Bet} (hpriced : ∀ b ∈ bets, b.Priced r.game) (C : Clearing config r s₀ [] es f s)
    (hperm : bets.Perm (s₀.activeBets r.id)) {Q : Post Db LockKey Write AppError Unit}
    (hok : ∀ es' f' s', Clearing config r s₀ bets es' f' s' → Q (.ok ()) f' s')
    (herror : ∀ e f' s', ¬s₀.Settleable r → Alike s₀ s' → Q (.error e) f' s') :
    ends database FreshId (forEach (settleBet r) bets) f s Q := by
  have hactive : ∀ b ∈ bets, b ∈ s₀.bets ∧ b.roundId = r.id ∧ b.status = .ACTIVE :=
    fun b hb => Db.mem_activeBets.1 (hperm.mem_iff.1 hb)
  have hnodup : (bets.map Bet.id).Nodup := by
    refine (hperm.map Bet.id).nodup_iff.2 ?_
    exact List.Nodup.sublist (List.filter_sublist.map _) h₀.keyed.bets
  let I : List Bet → Standing Db LockKey Write → Db → Prop := fun closed f s =>
    ∃ es, Clearing config r s₀ closed es f s
  refine ends_forEach I [] ⟨es, C⟩ ?_ ?_
  · rintro closed b after hsplit f₁ s₁ ⟨es₁, C₁⟩
    rw [List.nil_append] at hsplit
    have hb : b ∈ bets := by
      rw [hsplit]
      simp
    obtain ⟨w, hw⟩ := h₀.wallet_of_bet (hactive b hb).1
    have hnew : b.id ∉ closed.map Bet.id := by
      rw [hsplit, List.map_append, List.map_cons] at hnodup
      intro hmem
      exact List.disjoint_of_nodup_append hnodup hmem List.mem_cons_self
    refine C₁.settle h₀ hs₀ hr (hpriced b hb) (lookup_of_mem h₀.keyed.bets (hactive b hb).1)
      (hactive b hb).2.2 hnew hw (fun es₂ f₂ s₂ C₂ => ⟨es₂, C₂⟩) fun e f₂ s₂ hnot halike => ?_
    refine herror e f₂ s₂ (fun hfits => hnot ?_) halike
    have hall : closed ++ [b] ++ after = bets := by
      rw [hsplit]
      simp
    refine C₁.affords h₀ (fun c hc => ?_) (hall ▸ hperm) hw hfits
    rw [hall] at hc
    exact hr.pays_nonneg (hpriced c hc) (h₀.fits c (hactive c hc).1).stake
  · rintro f₁ s₁ ⟨es₁, C₁⟩
    exact hok es₁ f₁ s₁ C₁

end

/-! ## The whole transaction -/

/-- The update of a round that is settled. -/
def RoundUpdate.settled (now : Time) : RoundUpdate :=
  { status := .SETTLED, settledAt := some now }

/-- What has changed when a round is settled. -/
structure Settled (r : Round) (s s' : Db) : Prop where
  round : ∃ now, s'.round r.id = some ((RoundUpdate.settled now).row r)
  rounds : ∀ id, id ≠ r.id → s'.round id = s.round id
  settled : ∀ b ∈ s.activeBets r.id, ∃ u, Settles r b u ∧ s'.bet b.id = some (u.row b)
  bets : ∀ id, id ∉ (s.activeBets r.id).map Bet.id → s'.bet id = s.bet id
  balances : ∀ id, s'.balanceOf id = s.settledBalance r id
  elsewhere : SameElsewhere s s'

/-- The counter of the entries does not matter. -/
theorem Settled.alike {r : Round} {s s' s'' : Db} (h : Settled r s s') (halike : Alike s' s'') :
    Settled r s s'' where
  round := by
    rw [halike.round]
    exact h.round
  rounds id hid := (halike.round id).trans (h.rounds id hid)
  settled b hb := by
    rw [halike.bet]
    exact h.settled b hb
  bets id hid := (halike.bet id).trans (h.bets id hid)
  balances id := (halike.balanceOf id).trans (h.balances id)
  elsewhere := h.elsewhere.alike halike

/-- A bet is settled as won or as lost. -/
theorem Settles.status {r : Round} {b : Bet} {u : BetUpdate} (h : Settles r b u) :
    u.status = .WON ∨ u.status = .LOST := by
  obtain ⟨payout, now, -, rfl⟩ := h
  unfold Round.settling
  cases r.oddsOf b with
  | none => exact .inr rfl
  | some odds => exact .inl rfl

/-- A resolved round can be moved on. -/
theorem Round.settled_violated {r : Round} (h : r.violated = none)
    (hresolved : r.status = .RESOLVED) (now : Time) :
    ((RoundUpdate.settled now).row r).violated = none := by
  have hall := firstViolated_none h
  simp only [List.forall_mem_cons] at hall
  obtain ⟨hindex, hcrash, hflying, houtcome, hreveal, -, hstarted, -, hpocket, -⟩ := hall
  unfold Round.violated
  rw [firstViolated_eq_none]
  simp only [List.forall_mem_cons]
  refine ⟨hindex, hcrash, ?_, houtcome, ?_, ?_, ?_, ?_, hpocket, List.forall_mem_nil _⟩
  · simpa [RoundUpdate.settled, RoundUpdate.row, hresolved] using hflying
  · simpa [RoundUpdate.settled, RoundUpdate.row] using hreveal
  · simp [RoundUpdate.settled, RoundUpdate.row]
  · simpa [RoundUpdate.settled, RoundUpdate.row] using hstarted
  · simp [RoundUpdate.settled, RoundUpdate.row]

section
variable {config : Config} {s₀ s s' : Db} {f f' : Standing Db LockKey Write}
variable {es : List Effect} {bets : List Bet} {r : Round}

/-- No bet of the round is active once all are settled. -/
theorem Cleared.noneLeft (h₀ : Consistent config s₀) (C : Clearing config r s₀ bets es f s)
    (hperm : bets.Perm (s₀.activeBets r.id)) :
    (database.applyAll s₀ (rowsOf es)).NoneActive r.id := by
  intro b hb hround hactive
  have hfound := lookup_of_mem (C.inv h₀).keyed.bets hb
  by_cases hid : b.id ∈ bets.map Bet.id
  · obtain ⟨c, hc, hcid⟩ := List.mem_map.1 hid
    obtain ⟨u, hsettles, hrow⟩ := C.closed c hc
    rw [hcid] at hrow
    obtain rfl : b = u.row c := Option.some.inj (hfound.symm.trans hrow)
    have hstatus : u.status = .ACTIVE := hactive
    rcases hsettles.status with h | h <;> rw [h] at hstatus <;> cases hstatus
  · have hold : s₀.bet b.id = some b := (C.others b.id hid).symm.trans hfound
    have hmem := hperm.mem_iff.2 (Db.mem_activeBets.2 ⟨Db.bet_mem hold, hround, hactive⟩)
    exact hid (List.mem_map_of_mem hmem)

/-- The bets are settled, and the round is moved on. -/
theorem Cleared.roundSettled (hr : s₀.round r.id = some r) (C : Clearing config r s₀ bets es f s)
    (hperm : bets.Perm (s₀.activeBets r.id)) (now : Time) (e : RoundDomainEvent) :
    Settled r s₀ (database.applyAll s₀
      (rowsOf (es ++ [.advance r.id (.settled now), .aside (.notify e)]))) := by
  rw [rowsOf_append, Database.applyAll_append]
  refine ⟨⟨now, ?_⟩, fun id hid => ?_, fun b hb => C.closed b (hperm.mem_iff.2 hb),
    fun id hid => ?_, fun id => ?_, ?_⟩
  · refine lookup_modify_self (RoundUpdate.row_id _) ?_
    rw [C.rounds]
    exact hr
  · refine (lookup_modify_ne (RoundUpdate.row_id _) hid).trans ?_
    rw [C.rounds]
    rfl
  · refine C.others id fun hmem => hid ?_
    exact (hperm.map Bet.id).mem_iff.1 hmem
  · refine (C.moved id).trans ?_
    rw [(hperm.map fun b => b.moves s₀ (r.pays b) id).sum_eq]
    rfl
  · obtain ⟨husers, haccounts, hchains, htokens, hnonces⟩ := C.elsewhere
    exact ⟨husers, haccounts, hchains, htokens, hnonces⟩

/-- `settleRound` for a round that is resolved. -/
theorem ends_settleRound (h₀ : Consistent config s₀) (hs₀ : Constrained s₀) {roundId : Uuid}
    (hr : s₀.round roundId = some r) (hsound : r.Sound) (hresolved : r.status = .RESOLVED)
    (hpriced : ∀ b ∈ s₀.activeBets roundId, b.Priced r.game) :
    ends database FreshId (settleRound roundId) {} s₀ fun result _ s' =>
      (result.isOk = true → Settled r s₀ s') ∧
      (result.isOk = false → ¬s₀.Settleable r ∧ Alike s₀ s') := by
  obtain rfl : r.id = roundId := lookup_key hr
  have W : Alone config s₀ [] [] {} s₀ := .start hs₀.balances
  have hfail : ∀ {e : AppError} {P : Prop},
      (Except.error e : Except AppError Unit).isOk = true → P := fun h => by cases h
  refine ends_transaction (ends_bind.2 (ends_selectForLock (fun hnone => ?_) fun row hrow =>
    thenEnds_ok ?_))
  · rw [show s₀.round r.id = none from hnone] at hr
    cases hr
  obtain rfl : r = row := Option.some.inj (hr.symm.trans hrow)
  simp only [ne_eq, hresolved, not_true_eq_false, if_false]
  refine ends_bind.2 (Alone.lockActiveBets ((W.saw _).locked _ _ _) h₀.keyed
    fun bets f₂ hperm W₂ => thenEnds_ok ?_)
  refine ends_bind.2 (Cleared.settleAll h₀ hs₀ hsound
    (fun b hb => hpriced b (hperm.mem_iff.1 hb)) (.start W₂) hperm
    (fun es₃ f₃ s₃ C₃ => thenEnds_ok ?_) fun e f₃ s₃ hnot halike =>
      ⟨hfail, fun _ => ⟨hnot, halike⟩⟩)
  refine ends_bind.2 (ends_read fun x _ => thenEnds_ok ?_)
  have hrow₃ : (database.applyAll s₀ (rowsOf es₃)).round r.id = some r := by
    unfold Db.round
    rw [C₃.rounds]
    exact hr
  refine ends_bind.2 (C₃.toAlone.updateRoundWhere (u := .settled x.now) hrow₃ (by simp [hresolved])
    (by simp [RoundUpdate.settled]) (C₃.noneLeft h₀ hperm) (fun f₄ _ W₄ => thenEnds_ok ?_)
    fun e f₄ hbad => ?_)
  · refine W₄.publish fun f₅ W₅ => ?_
    rw [List.append_assoc] at W₅
    refine ⟨fun _ => ⟨fun _ => ?_, fun h => by cases h⟩, fun e hd => ?_⟩
    · exact (C₃.roundSettled hr hperm x.now _).alike W₅.view
    · rw [W₅.deferred] at hd
      cases hd
  · exact absurd (Round.settled_violated hsound.checks hresolved x.now) hbad

/-- `settleRound` for any other round. -/
theorem ends_settleRound_other {A : Db → Inputs → Prop} {roundId : Uuid}
    (hother : ∀ r, s₀.round roundId = some r → r.status ≠ .RESOLVED) :
    ends database A (settleRound roundId) {} s₀ fun result _ s' =>
      result.isOk = true ∧ s' = s₀ := by
  refine ends_transaction (ends_bind.2 (ends_selectForLock (fun hnone => ?_) fun r hr =>
    thenEnds_ok ?_))
  · exact ⟨fun _ => ⟨rfl, rfl⟩, fun e hd => by cases hd⟩
  · simp only [if_pos (hother r hr)]
    exact ⟨fun _ => ⟨rfl, rfl⟩, fun e hd => by cases hd⟩

end

/-! ## Every round -/

/-- `settleRound` runs to its end by itself, its `n`-th statement reading `xs n`, and commits. -/
def settleCommits (roundId : Uuid) (xs : ℕ → Inputs) (s : Db) : Bool :=
  ((settleRound roundId).finish database xs {} s).1.isOk

/-- The committed state afterwards. -/
def settleAfter (roundId : Uuid) (xs : ℕ → Inputs) (s : Db) : Db :=
  ((settleRound roundId).finish database xs {} s).2.2

/-- Every id that is drawn on the way names no journal row yet. -/
def SettleDraws (roundId : Uuid) (xs : ℕ → Inputs) (s : Db) : Prop :=
  (settleRound roundId).Reads database FreshId xs {} s

instance (roundId : Uuid) (xs : ℕ → Inputs) (s : Db) : Decidable (SettleDraws roundId xs s) :=
  inferInstanceAs (Decidable ((settleRound roundId).Reads database FreshId xs {} s))

/-- Settling a round that is not resolved, or none, changes nothing. -/
theorem settleRound_other {roundId : Uuid} {s : Db}
    (hother : ∀ r, s.round roundId = some r → r.status ≠ .RESOLVED) (xs : ℕ → Inputs) :
    settleCommits roundId xs s = true ∧ settleAfter roundId xs s = s :=
  finish_of_ends (ends_settleRound_other hother) (.of_forall fun _ _ => trivial)

/-- A row of `bets` but for the time at which it was settled. -/
def Bet.untimed (b : Bet) : Bet := { b with settledAt := none }

/-- Two settlements of a round differ in their times only. -/
theorem Settled.unique {r : Round} {s s' s'' : Db} (h : Settled r s s') (h' : Settled r s s'') :
    (∀ id, s'.balanceOf id = s''.balanceOf id) ∧
      ∀ id, (s'.bet id).map Bet.untimed = (s''.bet id).map Bet.untimed := by
  refine ⟨fun id => (h.balances id).trans (h'.balances id).symm, fun id => ?_⟩
  by_cases hid : id ∈ (s.activeBets r.id).map Bet.id
  · obtain ⟨b, hb, rfl⟩ := List.mem_map.1 hid
    obtain ⟨u, ⟨payout, now, hpayout, rfl⟩, hrow⟩ := h.settled b hb
    obtain ⟨u', ⟨payout', now', hpayout', rfl⟩, hrow'⟩ := h'.settled b hb
    obtain rfl : payout = payout' := Money.ext (hpayout.trans hpayout'.symm)
    rw [hrow, hrow']
    unfold Round.settling
    cases r.oddsOf b <;> rfl
  · rw [h.bets id hid, h'.bets id hid]

/-- The end of the settlement of a resolved round. -/
theorem settleRound_ends {config : Config} {crypto : Crypto} {w : System}
    (h : Reaches config crypto w) {roundId : Uuid} {xs : ℕ → Inputs}
    (hxs : SettleDraws roundId xs w.db) {r : Round} (hr : w.db.round roundId = some r)
    (hresolved : r.status = .RESOLVED) :
    (settleCommits roundId xs w.db = true → Settled r w.db (settleAfter roundId xs w.db)) ∧
    (settleCommits roundId xs w.db = false → ¬w.db.Settleable r ∧
      Alike w.db (settleAfter roundId xs w.db)) := by
  refine finish_of_ends (ends_settleRound (reachable_consistent h) (reachable_constrained h) hr
    ((reaches_lifecycle h).sound r (lookup_mem hr)) hresolved fun b hb => ?_) hxs
  obtain ⟨hmem, hround, -⟩ := Db.mem_activeBets.1 hb
  obtain ⟨r', hr', hpaid⟩ := (reachable_paid h).inv.2 b hmem
  rw [hround, hr] at hr'
  obtain rfl := Option.some.inj hr'
  exact hpaid.priced

/-- A resolved round is settled if its amounts are small enough. -/
theorem settleRound_resolved {config : Config} {crypto : Crypto} {w : System}
    (h : Reaches config crypto w) {roundId : Uuid} {xs : ℕ → Inputs}
    (hxs : SettleDraws roundId xs w.db) {r : Round} (hr : w.db.round roundId = some r)
    (hresolved : r.status = .RESOLVED) (hfits : w.db.Settleable r) :
    settleCommits roundId xs w.db = true := by
  by_contra hnot
  exact ((settleRound_ends h hxs hr hresolved).2 (Bool.eq_false_iff.2 hnot)).1 hfits

/-- In every state that the system reaches, a resolved round whose amounts are small enough is
settled, every active bet of it won or lost and every balance exact, in whatever order the bets are
found; once it is settled it is left as it is, as is a round that is not resolved; and whatever
fails leaves the tables as they were. -/
theorem settleRound_reachable {config : Config} {crypto : Crypto} {w : System}
    (h : Reaches config crypto w) (roundId : Uuid) (xs : ℕ → Inputs)
    (hxs : SettleDraws roundId xs w.db) :
    (∀ r, w.db.round roundId = some r → r.status = .RESOLVED →
      (w.db.Settleable r → settleCommits roundId xs w.db = true) ∧
      (settleCommits roundId xs w.db = true → Settled r w.db (settleAfter roundId xs w.db) ∧
        ∀ ys, settleCommits roundId ys (settleAfter roundId xs w.db) = true ∧
          settleAfter roundId ys (settleAfter roundId xs w.db) = settleAfter roundId xs w.db)) ∧
    ((∀ r, w.db.round roundId = some r → r.status ≠ .RESOLVED) →
      settleCommits roundId xs w.db = true ∧ settleAfter roundId xs w.db = w.db) ∧
    (settleCommits roundId xs w.db = false → Alike w.db (settleAfter roundId xs w.db)) ∧
    (∀ ys, SettleDraws roundId ys w.db → settleCommits roundId xs w.db = true →
      settleCommits roundId ys w.db = true →
      (∀ id, (settleAfter roundId xs w.db).balanceOf id =
        (settleAfter roundId ys w.db).balanceOf id) ∧
      ∀ id, ((settleAfter roundId xs w.db).bet id).map Bet.untimed =
        ((settleAfter roundId ys w.db).bet id).map Bet.untimed) := by
  refine ⟨fun r hr hresolved => ?_, fun hother => settleRound_other hother xs, fun hfails => ?_,
    fun ys hys hc hc' => ?_⟩
  · have hsettled := (settleRound_ends h hxs hr hresolved).1
    refine ⟨settleRound_resolved h hxs hr hresolved, fun hc => ⟨hsettled hc, fun ys => ?_⟩⟩
    refine settleRound_other (fun r' hr' hagain => ?_) ys
    obtain ⟨now, hrow⟩ := (hsettled hc).round
    rw [lookup_key hr, hr'] at hrow
    rw [Option.some.inj hrow] at hagain
    cases hagain
  · by_cases hother : ∀ r, w.db.round roundId = some r → r.status ≠ .RESOLVED
    · have hcommits := (settleRound_other hother xs).1
      rw [hfails] at hcommits
      cases hcommits
    · push Not at hother
      obtain ⟨r, hr, hresolved⟩ := hother
      exact ((settleRound_ends h hxs hr hresolved).2 hfails).2
  · by_cases hother : ∀ r, w.db.round roundId = some r → r.status ≠ .RESOLVED
    · rw [(settleRound_other hother xs).2, (settleRound_other hother ys).2]
      exact ⟨fun _ => rfl, fun _ => rfl⟩
    · push Not at hother
      obtain ⟨r, hr, hresolved⟩ := hother
      exact ((settleRound_ends h hxs hr hresolved).1 hc).unique
        ((settleRound_ends h hys hr hresolved).1 hc')

/-- The readings of a round that is settled from the last of its bets to the first. -/
def reversedReadings (n : ℕ) : Inputs :=
  { voidReadings n with order := ⟨List.reverse, fun rows => rows.reverse_perm⟩ }

/-- The red bet of the resolved round and the black one are settled in the order in which they were
placed, and in the other order: two journals, and the same bets and balances. -/
theorem settleRound_reachable_resolvedGame :
    ∃ r, (executed resolvedGame).db.round (uuidAt 109) = some r ∧
      Settled r (executed resolvedGame).db
        (settleAfter (uuidAt 109) voidReadings (executed resolvedGame).db) ∧
      Settled r (executed resolvedGame).db
        (settleAfter (uuidAt 109) reversedReadings (executed resolvedGame).db) ∧
      ((settleAfter (uuidAt 109) voidReadings (executed resolvedGame).db).bets.map fun b =>
        (b.stakeMinor.minor, b.status, b.payoutMinor.map Money.minor)) =
          [(1000, .WON, some 2000), (700, .LOST, some 0), (300, .ACTIVE, none)] ∧
      (settleAfter (uuidAt 109) voidReadings (executed resolvedGame).db).entries ≠
        (settleAfter (uuidAt 109) reversedReadings (executed resolvedGame).db).entries ∧
      (∀ id, (settleAfter (uuidAt 109) voidReadings (executed resolvedGame).db).balanceOf id =
        (settleAfter (uuidAt 109) reversedReadings (executed resolvedGame).db).balanceOf id) ∧
      ∀ id, ((settleAfter (uuidAt 109) voidReadings (executed resolvedGame).db).bet id).map
          Bet.untimed =
        ((settleAfter (uuidAt 109) reversedReadings (executed resolvedGame).db).bet id).map
          Bet.untimed := by
  have hsome : ((executed resolvedGame).db.round (uuidAt 109)).isSome = true := by decide +kernel
  obtain ⟨r, hr⟩ := Option.isSome_iff_exists.1 hsome
  have hstatus : ((executed resolvedGame).db.round (uuidAt 109)).map Round.status =
      some .RESOLVED := by
    decide +kernel
  rw [hr] at hstatus
  have hcommits :
      settleCommits (uuidAt 109) reversedReadings (executed resolvedGame).db = true := by
    decide +kernel
  have hplaced := settleRound_reachable (reaches_executed resolvedGame) (uuidAt 109) voidReadings
    (by decide +kernel)
  have hreversed := settleRound_reachable (reaches_executed resolvedGame) (uuidAt 109)
    reversedReadings (by decide +kernel)
  have hagree := hplaced.2.2.2 reversedReadings (by decide +kernel) (by decide +kernel) hcommits
  refine ⟨r, hr, ?_, ?_, by decide +kernel, by decide +kernel, hagree.1, hagree.2⟩
  · exact ((hplaced.1 r hr (Option.some.inj hstatus)).2 (by decide +kernel)).1
  · exact ((hreversed.1 r hr (Option.some.inj hstatus)).2 hcommits).1

end Tessera
