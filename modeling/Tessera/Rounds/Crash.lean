import Tessera.Books.System
import Tessera.Transactions.Solo

/-!
# The instant of the crash

`cashOut` prices a bet on the curve, the engine looks up when the curve reaches the crash
point.  Both decide at the same instant.

* `cashOutActive_decides`, `tickGame_decides` — what each does once it has read the round and
  the clock;
* `crash_instant` — the two decisions split at the same elapsed time.
-/

namespace Tessera

open Transactions Transactions.Program

/-- A crash round in flight. -/
structure Round.Flying (round : Round) (crashPointBp : ℤ) (startedAt : Time) : Prop where
  game : round.game = .CRASH
  status : round.status = .RUNNING
  crashPoint : round.crashPointBp = some crashPointBp
  started : round.startedAt = some startedAt

section
variable {round : Round} {crashPointBp : ℤ} {startedAt : Time}
variable {f : Standing Db LockKey Write} {s : Db}

/-- What `cashOut` goes on to do once it has read the round and then the clock. -/
theorem cashOutActive_decides (h : round.Flying crashPointBp startedAt) (input : CashOutInput)
    {bet : Bet} (hround : (f.view database s).round bet.roundId = some round) (x₀ x : Inputs) :
    (alone database [x₀, x] (cashOutActive input bet) f s).2.1 =
      if multiplierAtElapsed (x.now - startedAt) < crashPointBp then
        payCashOut input bet .CRASH x.now (multiplierAtElapsed (x.now - startedAt))
      else throw (.cashOutTooLate crashPointBp) := by
  obtain ⟨hgame, hstatus, hpoint, hstarted⟩ := h
  unfold cashOutActive
  rw [alone_bind_select, hround]
  simp only [hgame, hstatus, hpoint, hstarted]
  rw [alone_bind_read]
  by_cases hlt : multiplierAtElapsed (x.now - startedAt) < crashPointBp
  · rw [if_pos hlt, if_neg (not_le.2 hlt)]
    rfl
  · rw [if_neg hlt, if_pos (not_lt.1 hlt)]
    rfl

/-- What `tickGame` goes on to do once it has read the round and then the clock. -/
theorem tickGame_decides (config : Config) (crypto : Crypto)
    (h : round.Flying crashPointBp startedAt)
    (hlive : liveRoundOf .CRASH (f.view database s) = some round) (x₀ x : Inputs) :
    (alone database [x₀, x] (tickGame config crypto .CRASH) f s).2.1 =
      if x.now - startedAt < elapsedAtMultiplier crashPointBp then pure ()
      else if x.now - startedAt < elapsedAtMultiplier crashPointBp + config.roundStaleGraceMs then
        resolveRound round.id
      else voidRound round.id := by
  obtain ⟨hgame, hstatus, hpoint, hstarted⟩ := h
  have hafter : crashAfterMs config round = elapsedAtMultiplier crashPointBp := by
    unfold crashAfterMs
    rw [hgame, hpoint]
    rfl
  have hgrace := config.staleGrace_ge
  unfold tickGame
  rw [alone_bind_select, hlive]
  simp only
  rw [alone_bind_read]
  simp only [hstatus, hstarted, hafter]
  by_cases hearly : x.now - startedAt < elapsedAtMultiplier crashPointBp
  · rw [if_pos hearly, if_neg (not_le.2 (by linarith)), if_neg (not_le.2 hearly)]
    rfl
  · rw [if_neg hearly]
    by_cases hgraced : x.now - startedAt < elapsedAtMultiplier crashPointBp + config.roundStaleGraceMs
    · rw [if_pos hgraced, if_neg (not_le.2 hgraced), if_pos (not_lt.1 hearly)]
      rfl
    · rw [if_neg hgraced, if_pos (not_lt.1 hgraced)]
      rfl

/-- `cashOut` still pays just as long as the engine leaves the round in flight, for every
outcome that a hash can have and every reading of the clock. -/
theorem crash_instant (config : Config) (crypto : Crypto) {hashHex : String}
    (hhex : isHex hashHex.toList = true) (hlength : 14 ≤ hashHex.toList.length) :
    ∃ crashPointBp, crashPointFromHash hashHex = .ok crashPointBp ∧
      basisPointsOne ≤ crashPointBp ∧ crashPointBp ≤ maxMultiplierBp ∧
      (∀ elapsedMs, 0 ≤ elapsedMs → (multiplierAtElapsed elapsedMs < crashPointBp ↔
        elapsedMs < elapsedAtMultiplier crashPointBp)) ∧
      ∀ (round : Round) (startedAt : Time), round.Flying crashPointBp startedAt →
        ∀ (f g : Standing Db LockKey Write) (s s' : Db) (input : CashOutInput) (bet : Bet)
          (x₀ x y₀ y : Inputs),
          (f.view database s).round bet.roundId = some round →
          liveRoundOf .CRASH (g.view database s') = some round →
          startedAt ≤ x.now → y.now = x.now →
          (alone database [x₀, x] (cashOutActive input bet) f s).2.1 =
            (if x.now - startedAt < elapsedAtMultiplier crashPointBp then
              payCashOut input bet .CRASH x.now (multiplierAtElapsed (x.now - startedAt))
            else throw (.cashOutTooLate crashPointBp)) ∧
          (alone database [y₀, y] (tickGame config crypto .CRASH) g s').2.1 =
            (if x.now - startedAt < elapsedAtMultiplier crashPointBp then pure ()
            else if x.now - startedAt < elapsedAtMultiplier crashPointBp + config.roundStaleGraceMs
              then resolveRound round.id
            else voidRound round.id) := by
  obtain ⟨crashPointBp, hpoint⟩ := crashPointFromHash_ok hhex hlength
  obtain ⟨hone, hmax⟩ := crashPointFromHash_bounds hpoint
  refine ⟨crashPointBp, hpoint, hone, hmax, fun e he => multiplierAtElapsed_lt_iff hone hmax he,
    fun round startedAt hround f g s s' input bet x₀ x y₀ y hbet hlive hstarted hclock => ⟨?_, ?_⟩⟩
  · rw [cashOutActive_decides hround input hbet]
    exact if_congr (multiplierAtElapsed_lt_iff hone hmax (sub_nonneg.2 hstarted)) rfl rfl
  · rw [tickGame_decides config crypto hround hlive, hclock]

end

/-- A crash round in flight, which crashes at 1.14x. -/
def flyingRound : Round where
  id := 9
  nonce := 1
  game := .CRASH
  status := .RUNNING
  seed := "seed"
  seedHash := "hash"
  seedRevealed := none
  crashPointBp := some 11400
  winningPocket := none
  chainId := none
  chainIndex := none
  opensAt := 0
  locksAt := 0
  startedAt := some 0
  resolvedAt := none
  settledAt := none

/-- A bet on it. -/
def flyingBet : Bet where
  id := 7
  userId := 5
  roundId := 9
  stakeMinor := ⟨100, rfl⟩
  status := .ACTIVE
  settledMultiplierBp := none
  payoutMinor := none
  idempotencyKey := "a"
  createdAt := 0
  settledAt := none
  selectionType := none
  selectionValue := none
  oddsBp := none

/-- The tables in which it is in flight. -/
def inFlight : Db := { rounds := [flyingRound], bets := [flyingBet] }

/-- A hash whose crash point is 1.14x, and the round in flight on it: after 1399 ms a cash-out is
still paid and the tick leaves the round alone, after 1400 ms the one is too late and the other
resolves the round. -/
theorem crash_instant_example :
    crashPointFromHash "0000000120000000000000" = .ok 11400 ∧ elapsedAtMultiplier 11400 = 1400 ∧
      (∀ elapsedMs, 0 ≤ elapsedMs →
        (multiplierAtElapsed elapsedMs < 11400 ↔ elapsedMs < elapsedAtMultiplier 11400)) ∧
      (alone database [readingAt 0 0, readingAt 1 1399] (cashOutActive ⟨5, 7⟩ flyingBet) {}
        inFlight).2.1 = payCashOut ⟨5, 7⟩ flyingBet .CRASH 1399 11380 ∧
      (alone database [readingAt 0 0, readingAt 1 1399] (tickGame smallConfig plainCrypto .CRASH) {}
        inFlight).2.1 = pure () ∧
      (alone database [readingAt 0 0, readingAt 1 1400] (cashOutActive ⟨5, 7⟩ flyingBet) {}
        inFlight).2.1 = throw (.cashOutTooLate 11400) ∧
      (alone database [readingAt 0 0, readingAt 1 1400] (tickGame smallConfig plainCrypto .CRASH) {}
        inFlight).2.1 = resolveRound 9 := by
  obtain ⟨crashPointBp, hpoint, -, -, hiff, hdecide⟩ := crash_instant smallConfig plainCrypto
    (by decide +kernel : isHex "0000000120000000000000".toList = true) (by decide +kernel)
  have hvalue : crashPointFromHash "0000000120000000000000" = .ok 11400 := by decide +kernel
  obtain rfl : crashPointBp = 11400 := Except.ok.inj (hpoint.symm.trans hvalue)
  have hfly : flyingRound.Flying 11400 0 := ⟨rfl, rfl, rfl, rfl⟩
  have helapsed : elapsedAtMultiplier 11400 = 1400 := by decide +kernel
  have hclock : ∀ n now, (readingAt n now).now = now := fun _ _ => rfl
  have hat : ∀ now : Time, 0 ≤ now → _ := fun now hnow =>
    hdecide flyingRound 0 hfly {} {} inFlight inFlight ⟨5, 7⟩ flyingBet (readingAt 0 0)
      (readingAt 1 now) (readingAt 0 0) (readingAt 1 now) rfl rfl hnow rfl
  obtain ⟨hpays, hleaves⟩ := hat 1399 (by decide)
  obtain ⟨hlate, hresolves⟩ := hat 1400 (by decide)
  have hmultiplier : multiplierAtElapsed 1399 = 11380 := by decide +kernel
  simp only [hclock, helapsed, sub_zero] at hpays hleaves hlate hresolves
  refine ⟨hvalue, helapsed, hiff, ?_, ?_, ?_, ?_⟩
  · rw [hpays, if_pos (by decide), hmultiplier]
  · rw [hleaves, if_pos (by decide)]
  · rw [hlate, if_neg (by decide)]
  · rw [hresolves, if_neg (by decide), if_pos (by decide)]
    rfl

end Tessera
