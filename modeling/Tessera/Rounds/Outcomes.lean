import Tessera.Books.Terms
import Tessera.Rounds.Selections

/-!
# What a bet is paid

The abstract layer over bets and rounds: how a bet may be closed, given the round it was placed
on, and what is then true of the two rows from that moment on.

* `Bet.PaidOut` — what is true of a bet and its round;
* `Closed` — the ways in which a bet is closed, and what becomes of the round with it;
* `BetChange` — what one transaction does to the bets;
* `Outcomes` — every bet is paid out as its round says; `Outcomes.after` — every change keeps it.

Source: `rounds.service.ts` `cashOut`, `priceSelection`; `round-engine.service.ts`
`settleRouletteBet`, `settleLostBet`, `refundBet`.
-/

namespace Tessera

open Relational Transactions

/-- What is true of a bet and of the round it was placed on. -/
structure Bet.PaidOut (b : Bet) (r : Round) : Prop where
  priced : b.Priced r.game
  /-- A crash bet is won at the multiplier of the moment it is closed, before the crash. -/
  wonCrash : b.status = .WON → r.game = .CRASH → ∃ now startedAt multiplier crash payout,
    b.settledAt = some now ∧ r.startedAt = some startedAt ∧ r.crashPointBp = some crash ∧
      b.settledMultiplierBp = some multiplier ∧ b.payoutMinor = some payout ∧
      multiplier = multiplierAtElapsed (now - startedAt) ∧
      basisPointsOne ≤ multiplier ∧ multiplier < crash ∧
      payout.minor = b.stakeMinor.minor * multiplier / basisPointsOne ∧
      b.stakeMinor.minor ≤ payout.minor
  /-- A roulette bet is won at the odds recorded with it, on a pocket that its selection wins. -/
  wonRoulette : b.status = .WON → r.game = .ROULETTE → ∃ odds pocket payout,
    b.oddsBp = some odds ∧ b.settledMultiplierBp = some odds ∧ r.winningPocket = some pocket ∧
      b.payoutMinor = some payout ∧
      payout.minor = b.stakeMinor.minor * odds / basisPointsOne ∧
      selectionWins b.selection pocket = .ok (some true)
  lost : b.status = .LOST → b.payoutMinor = some Money.zero ∧ r.status = .SETTLED ∧
    (r.game = .ROULETTE → ∃ pocket, r.winningPocket = some pocket ∧
      selectionWins b.selection pocket = .ok (some false))
  voided : b.status = .VOIDED → b.payoutMinor = some b.stakeMinor ∧ r.status = .VOIDED

/-- Every bet is paid out as its round says. -/
def Outcomes (s : Db) : Prop :=
  ∀ b ∈ s.bets, ∃ r, s.round b.roundId = some r ∧ b.PaidOut r

/-- The ways in which a call closes a bet, with the columns that it sets, and the status that
the round takes on in the same transaction. -/
inductive Closed (c : Call) (b : Bet) (r : Round) : BetUpdate → Option RoundStatus → Prop
  /-- The owner cashes out, at the multiplier of the moment and before the crash. -/
  | cashedOut {input : CashOutInput} {now startedAt : Time} {crash : ℤ} {payout : Money}
      (call : c = .cashOut input) (bet : b.id = input.betId) (user : b.userId = input.userId)
      (game : r.game = .CRASH) (started : r.startedAt = some startedAt)
      (crashPoint : r.crashPointBp = some crash)
      (before : multiplierAtElapsed (now - startedAt) < crash)
      (amount : b.stakeMinor.applyMultiplier (multiplierAtElapsed (now - startedAt)) =
        .ok payout) :
      Closed c b r
        { status := .WON
          settledMultiplierBp := some (multiplierAtElapsed (now - startedAt))
          payoutMinor := payout
          settledAt := now } none
  /-- The engine pays a roulette bet at its odds. -/
  | won {odds : ℤ} {payout : Money} {now : Time} (engine : ∀ input, c ≠ .cashOut input)
      (game : r.game = .ROULETTE) (wins : b.winsAt (r.winningPocket.getD 0) = .ok (some odds))
      (amount : b.stakeMinor.applyMultiplier odds = .ok payout) :
      Closed c b r
        { status := .WON
          settledMultiplierBp := some odds
          payoutMinor := payout
          settledAt := now } (some .SETTLED)
  /-- The engine writes a bet off. -/
  | lost {now : Time} (engine : ∀ input, c ≠ .cashOut input)
      (loses : r.game = .ROULETTE → b.winsAt (r.winningPocket.getD 0) = .ok none) :
      Closed c b r { status := .LOST, payoutMinor := Money.zero, settledAt := now }
        (some .SETTLED)
  /-- The engine gives a stake back. -/
  | refunded {now : Time} (engine : ∀ input, c ≠ .cashOut input) :
      Closed c b r { status := .VOIDED, payoutMinor := b.stakeMinor, settledAt := now }
        (some .VOIDED)

/-- What one transaction of a call does to the bets: it places one, or closes some, those that
the engine closes being all on the round that ends with them. -/
inductive BetChange (c : Call) (s : Db) (rows : List Write) : Prop
  | placed {b : Bet} {r : Round} (round : s.round b.roundId = some r)
      (active : b.status = .ACTIVE) (priced : b.Priced r.game)
      (only : rowsOn .bets rows = [.insertBet b])
  | closed (outcome : Option RoundStatus)
      (each : ∀ w ∈ rowsOn .bets rows, ∃ id u b r, w = .updateBet id u ∧ s.bet id = some b ∧
        s.round b.roundId = some r ∧ Closed c b r u outcome ∧
        ∀ status, outcome = some status →
          ∃ v, .updateRound b.roundId v ∈ rows ∧ v.status = status)

/-! ## The two rows from then on -/

section
variable {config : Config} {c : Call} {b : Bet} {r r' : Round} {s : Db} {rows : List Write}

/-- The round goes on, and what is true of the bet stays true. -/
theorem Bet.PaidOut.later (h : b.PaidOut r) (hr : r.Becomes r') : b.PaidOut r' := by
  have hgame : r'.core.game = r.core.game := congrArg Round.game hr.core
  have hcrash : r'.core.crashPointBp = r.core.crashPointBp := congrArg Round.crashPointBp hr.core
  have hpocket : r'.core.winningPocket = r.core.winningPocket :=
    congrArg Round.winningPocket hr.core
  change r'.game = r.game at hgame
  change r'.crashPointBp = r.crashPointBp at hcrash
  change r'.winningPocket = r.winningPocket at hpocket
  refine ⟨hgame ▸ h.priced, fun hwon hg => ?_, fun hwon hg => ?_, fun hlost => ?_, fun hvoid => ?_⟩
  · obtain ⟨now, startedAt, multiplier, crash, payout, hnow, hstarted, hc, hrest⟩ :=
      h.wonCrash hwon (hgame ▸ hg)
    exact ⟨now, startedAt, multiplier, crash, payout, hnow, hr.started _ hstarted,
      hcrash.trans hc, hrest⟩
  · obtain ⟨odds, pocket, payout, hodds, hm, hp, hrest⟩ := h.wonRoulette hwon (hgame ▸ hg)
    exact ⟨odds, pocket, payout, hodds, hm, hpocket.trans hp, hrest⟩
  · obtain ⟨hpayout, hsettled, hloses⟩ := h.lost hlost
    refine ⟨hpayout, ?_, fun hg => ?_⟩
    · rw [hr.final (.inl hsettled)]
      exact hsettled
    · obtain ⟨pocket, hp, hl⟩ := hloses (hgame ▸ hg)
      exact ⟨pocket, hpocket.trans hp, hl⟩
  · obtain ⟨hpayout, hvoided⟩ := h.voided hvoid
    refine ⟨hpayout, ?_⟩
    rw [hr.final (.inr hvoided)]
    exact hvoided

/-- A bet that has just been placed. -/
theorem Bet.PaidOut.of_active (hpriced : b.Priced r.game) (hactive : b.status = .ACTIVE) :
    b.PaidOut r := by
  refine ⟨hpriced, fun h => ?_, fun h => ?_, fun h => ?_, fun h => ?_⟩ <;>
  · rw [hactive] at h
    cases h

/-- The pocket of a roulette round. -/
theorem Round.Sound.pocket (h : r.Sound) (hgame : r.game = .ROULETTE) :
    ∃ pocket, r.winningPocket = some pocket ∧ 0 ≤ pocket ∧ pocket ≤ 36 := by
  have hchecked := Round.checked h.checks
  have houtcome := hchecked.outcome
  rw [hgame] at houtcome
  obtain ⟨pocket, hpocket⟩ := Option.isSome_iff_exists.1 houtcome
  exact ⟨pocket, hpocket, hchecked.pocket pocket hpocket⟩

/-- A bet that is closed is paid out as its round says. -/
theorem Closed.paidOut {u : BetUpdate} {outcome : Option RoundStatus} (h : Closed c b r u outcome)
    (hr : r.Sound) (hb : b.PaidOut r) (hbecomes : r.Becomes r')
    (houtcome : ∀ status, outcome = some status → r'.status = status) :
    (u.row b).PaidOut r' := by
  have hgame : r'.core.game = r.core.game := congrArg Round.game hbecomes.core
  change r'.game = r.game at hgame
  have hcrash : r'.core.crashPointBp = r.core.crashPointBp :=
    congrArg Round.crashPointBp hbecomes.core
  have hpocket : r'.core.winningPocket = r.core.winningPocket :=
    congrArg Round.winningPocket hbecomes.core
  change r'.crashPointBp = r.crashPointBp at hcrash
  change r'.winningPocket = r.winningPocket at hpocket
  have hpriced : (u.row b).Priced r'.game := (hgame ▸ hb.priced).update u
  cases h with
  | @cashedOut input now startedAt crash payout hcall hid huser hg hstarted hpoint hbefore hamount =>
    have hge := basisPointsOne_le_multiplierAtElapsed (now - startedAt)
    refine ⟨hpriced, fun _ _ => ?_, fun _ hroulette => ?_, by simp [BetUpdate.row],
      by simp [BetUpdate.row]⟩
    · exact ⟨now, startedAt, _, crash, payout, rfl, hbecomes.started _ hstarted,
        hcrash.trans hpoint, rfl, rfl, rfl, hge, hbefore, (applyMultiplier_ok hamount).1,
        le_applyMultiplier hge hamount⟩
    · rw [hgame, hg] at hroulette
      cases hroulette
  | @won odds payout now hengine hg hwins hamount =>
    refine ⟨hpriced, fun _ hcrash' => ?_, fun _ _ => ?_, by simp [BetUpdate.row],
      by simp [BetUpdate.row]⟩
    · rw [hgame, hg] at hcrash'
      cases hcrash'
    · obtain ⟨pocket, hp, hrange⟩ := hr.pocket hg
      have hbacks := hb.priced
      rw [hg] at hbacks
      obtain ⟨type, hbacks⟩ := hbacks
      obtain ⟨wins, hselection⟩ := hbacks.selectionWins hrange
      rw [hp, Option.getD_some, hbacks.winsAt hselection] at hwins
      cases wins with
      | false => cases hwins
      | true =>
        cases hwins
        exact ⟨_, pocket, payout, hbacks.odds, rfl, hpocket.trans hp, rfl,
          (applyMultiplier_ok hamount).1, hselection⟩
  | @lost now hengine hloses =>
    refine ⟨hpriced, by simp [BetUpdate.row], by simp [BetUpdate.row], fun _ => ?_,
      by simp [BetUpdate.row]⟩
    refine ⟨rfl, houtcome _ rfl, fun hroulette => ?_⟩
    have hg := hgame.symm.trans hroulette
    obtain ⟨pocket, hp, hrange⟩ := hr.pocket hg
    have hbacks := hb.priced
    rw [hg] at hbacks
    obtain ⟨type, hbacks⟩ := hbacks
    obtain ⟨wins, hselection⟩ := hbacks.selectionWins hrange
    have hlost := hloses hg
    rw [hp, Option.getD_some, hbacks.winsAt hselection] at hlost
    cases wins with
    | true => cases hlost
    | false => exact ⟨pocket, hpocket.trans hp, hselection⟩
  | @refunded now hengine =>
    refine ⟨hpriced, by simp [BetUpdate.row], by simp [BetUpdate.row], by simp [BetUpdate.row],
      fun _ => ⟨rfl, houtcome _ rfl⟩⟩

/-! ## The tables -/

/-- An update of a round that a transaction makes is what becomes of the round. -/
theorem RoundChange.updated (h : RoundChange s (rowsOn .rounds rows)) {id : Uuid}
    {u : RoundUpdate} (hu : .updateRound id u ∈ rows) :
    ∃ r, s.round id = some r ∧ (database.applyAll s rows).round id = some (u.row r) := by
  have hmem : .updateRound id u ∈ rowsOn .rounds rows := List.mem_filter.2 ⟨hu, rfl⟩
  have hrounds := applyAll_rounds s rows
  unfold Db.round at *
  rw [hrounds]
  generalize rowsOn .rounds rows = changed at h hmem
  cases h with
  | none => cases hmem
  | opened => cases List.mem_singleton.1 hmem
  | moved hr ht hu' =>
    cases List.mem_singleton.1 hmem
    exact ⟨_, hr, lookup_modify_self (RoundUpdate.row_id u) hr⟩

/-- What an effect does to a bet that is there: nothing, or it closes it. -/
theorem Effect.bet {e : Effect} (he : e.Enabled config s) {id : Uuid} (hb : s.bet id = some b) :
    (e.after s).bet id = some b ∨
      ∃ u, .updateBet id u ∈ e.rows ∧ (e.after s).bet id = some (u.row b) ∧
        b.status = .ACTIVE ∧ u.status ≠ .ACTIVE := by
  cases e with
  | enroll u a p =>
    have hafter : Effect.after (.enroll u a p) s =
        ((s.apply (.insertUser u)).apply (.insertAccount a)).posted p := applyAll_posted _ p
    rw [hafter]
    exact .inl hb
  | place b' p =>
    have hafter : Effect.after (.place b' p) s = (s.apply (.insertBet b')).posted p :=
      applyAll_posted _ p
    rw [hafter]
    exact .inl (lookup_append_of_some hb [b'])
  | close id' u p =>
    have hafter : Effect.after (.close id' u p) s = (s.apply (.updateBet id' u)).posted p :=
      applyAll_posted _ p
    rw [hafter]
    by_cases hid : id = id'
    · subst hid
      obtain ⟨b₀, hb₀, hactive, -⟩ := he.bet
      obtain rfl : b₀ = b := Option.some.inj (hb₀.symm.trans hb)
      refine .inr ⟨u, List.mem_cons_self, lookup_modify_self (BetUpdate.row_id u) hb, hactive, ?_⟩
      obtain ⟨kind, hkind, -⟩ := he.posted
      intro hstatus
      rw [hstatus] at hkind
      cases hkind
    · exact .inl ((lookup_modify_ne (BetUpdate.row_id u) hid).trans hb)
  | advance id' u => exact .inl hb
  | launch r => exact .inl hb
  | aside w =>
    have hw : w.isAside = true := he
    cases w <;> first
      | exact absurd hw Bool.false_ne_true
      | exact .inl hb

/-- A transaction closes a bet at most once. -/
theorem Done.bet {es : List Effect} (h : Done config s es) {id : Uuid} (hb : s.bet id = some b) :
    (database.applyAll s (rowsOf es)).bet id = some b ∨
      ∃ u, .updateBet id u ∈ rowsOf es ∧
        (database.applyAll s (rowsOf es)).bet id = some (u.row b) ∧ b.status = .ACTIVE := by
  induction es generalizing s b with
  | nil => exact .inl hb
  | cons e es ih =>
    rw [applyAll_rowsOf_cons]
    rcases Effect.bet h.1 hb with hb' | ⟨u, hu, hb', hactive, hclosed⟩
    · rcases ih h.2 hb' with hend | ⟨u, hu, hend, hactive⟩
      · exact .inl hend
      · exact .inr ⟨u, List.mem_append_right _ hu, hend, hactive⟩
    · rcases ih h.2 hb' with hend | ⟨u', -, -, hagain⟩
      · exact .inr ⟨u, List.mem_append_left _ hu, hend, hactive⟩
      · exact absurd hagain hclosed

/-- The bets after writes that close some. -/
theorem bets_ids (h : ∀ w ∈ rowsOn .bets rows, ∃ id u, w = .updateBet id u) :
    (database.applyAll s rows).bets.map Bet.id = s.bets.map Bet.id := by
  rw [applyAll_bets]
  generalize rowsOn .bets rows = changed at h
  induction changed generalizing s with
  | nil => rfl
  | cons w changed ih =>
    obtain ⟨⟨id, u, rfl⟩, hrest⟩ := List.forall_mem_cons.1 h
    rw [Database.applyAll_cons, ih hrest]
    exact map_key_modify (BetUpdate.row_id u)

/-- Where a bet comes from after a change: it was there, has been placed, or has been closed. -/
theorem BetChange.row {es : List Effect} (hbet : BetChange c s (rowsOf es))
    (hbooks : Consistent config s) (hdone : Done config s es) {b' : Bet}
    (hb' : b' ∈ (database.applyAll s (rowsOf es)).bets) :
    b' ∈ s.bets ∨
      (∃ r, s.round b'.roundId = some r ∧ b'.status = .ACTIVE ∧ b'.Priced r.game) ∨
      ∃ b u r outcome, b ∈ s.bets ∧ b' = u.row b ∧ .updateBet b.id u ∈ rowsOf es ∧
        s.round b.roundId = some r ∧ Closed c b r u outcome ∧
        ∀ status, outcome = some status →
          ∃ v, .updateRound b.roundId v ∈ rowsOf es ∧ v.status = status := by
  cases hbet with
  | @placed b r hr hactive hpriced honly =>
    rw [applyAll_bets, honly] at hb'
    rcases List.mem_append.1 hb' with hb' | hb'
    · exact .inl hb'
    · obtain rfl := List.mem_singleton.1 hb'
      exact .inr (.inl ⟨r, hr, hactive, hpriced⟩)
  | closed outcome each =>
    have hids : (database.applyAll s (rowsOf es)).bets.map Bet.id = s.bets.map Bet.id :=
      bets_ids fun w hw => by
        obtain ⟨id, u, -, -, hw', -⟩ := each w hw
        exact ⟨id, u, hw'⟩
    have hfind : (database.applyAll s (rowsOf es)).bet b'.id = some b' :=
      lookup_of_mem (hdone.keeps hbooks).1.keyed.bets hb'
    obtain ⟨b, hb, hid⟩ : ∃ b ∈ s.bets, b.id = b'.id :=
      List.mem_map.1 (hids ▸ List.mem_map_of_mem hb')
    have hsome : s.bet b'.id = some b := hid ▸ lookup_of_mem hbooks.keyed.bets hb
    rcases hdone.bet hsome with hsame | ⟨u, hu, hupdated, -⟩
    · rw [hfind] at hsame
      cases hsame
      exact .inl hb
    · rw [hfind] at hupdated
      cases hupdated
      obtain ⟨id, u', b₀, r, hw, hb₀, hr, hclosed, hends⟩ :=
        each _ (List.mem_filter.2 ⟨hu, rfl⟩)
      cases hw
      obtain rfl : b₀ = b := Option.some.inj (hb₀.symm.trans hsome)
      exact .inr (.inr ⟨b₀, u, r, outcome, hb, rfl, hu, hr, hclosed, hends⟩)

/-- Every change keeps the outcomes. -/
theorem Outcomes.after {es : List Effect} (hs : Outcomes s) (hbooks : Consistent config s)
    (hrounds : Lifecycle s) (hdone : Done config s es)
    (hround : RoundChange s (rowsOn .rounds (rowsOf es))) (hbet : BetChange c s (rowsOf es)) :
    Outcomes (database.applyAll s (rowsOf es)) := by
  have hmove : RoundsMove s (database.applyAll s (rowsOf es)) := (hrounds.after hround).2
  intro b' hb'
  rcases hbet.row hbooks hdone hb' with hb | ⟨r, hr, hactive, hpriced⟩ |
    ⟨b, u, r, outcome, hb, rfl, -, hr, hclosed, hends⟩
  · obtain ⟨r, hr, hpaid⟩ := hs b' hb
    obtain ⟨r', hr', hbecomes⟩ := hmove _ r hr
    exact ⟨r', hr', hpaid.later hbecomes⟩
  · obtain ⟨r', hr', hbecomes⟩ := hmove _ r hr
    exact ⟨r', hr', (Bet.PaidOut.of_active hpriced hactive).later hbecomes⟩
  · obtain ⟨r₀, hr₀, hpaid⟩ := hs b hb
    obtain rfl : r₀ = r := Option.some.inj (hr₀.symm.trans hr)
    obtain ⟨r', hr', hbecomes⟩ := hmove _ r₀ hr
    refine ⟨r', hr', hclosed.paidOut (hrounds.sound _ (lookup_mem hr)) hpaid hbecomes ?_⟩
    -- the round takes on its new status in the same transaction
    intro status hstatus
    obtain ⟨v, hv, hvstatus⟩ := hends status hstatus
    obtain ⟨r₁, -, hafter⟩ := hround.updated hv
    have hsame := hr'.symm.trans hafter
    exact (congrArg (Option.map Round.status) hsame |> Option.some.inj).trans hvstatus

end

end Tessera
