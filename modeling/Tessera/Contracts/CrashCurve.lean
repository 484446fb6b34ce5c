import Tessera.Contracts.Money

/-!
# The crash curve

How the multiplier climbs while a round is in flight, in exact integer arithmetic.

* `multiplierAtTick`, `elapsedAtMultiplier` — the curve, and the search that inverts it;
* `multiplierAtElapsed_lt_iff` — the two agree on the instant a multiplier is reached.

Source: `packages/contracts/src/crash-curve.ts`.
-/

namespace Tessera

/-- Source: `TICK_MS`. -/
def tickMs : ℤ := 100

/-- Source: `GROWTH_NUMERATOR`. -/
def growthNumerator : ℤ := 101

/-- Source: `GROWTH_DENOMINATOR`. -/
def growthDenominator : ℤ := 100

/-- Source: `MAX_TICKS`. -/
def maxTicks : ℕ := 694

/-- Source: `multiplierAtTick`.  A tick is a natural number by type, so the range error of a
negative or fractional tick cannot arise. -/
def multiplierAtTick (tick : ℕ) : ℤ :=
  let cappedTick := min tick maxTicks
  basisPointsOne * growthNumerator ^ cappedTick / growthDenominator ^ cappedTick

/-- Source: `tickAtElapsed`. -/
def tickAtElapsed (elapsedMs : ℤ) : ℕ :=
  if elapsedMs < 0 then 0 else (elapsedMs / tickMs).toNat

/-- Source: `multiplierAtElapsed`. -/
def multiplierAtElapsed (elapsedMs : ℤ) : ℤ := multiplierAtTick (tickAtElapsed elapsedMs)

/-- The `while` loop of `elapsedAtMultiplier`: the least tick in `[low, high]` that reaches
the multiplier.  Each turn halves the interval, so the number of ticks bounds the turns. -/
def searchTick (multiplierBp : ℤ) : ℕ → ℕ → ℕ → ℕ
  | 0, low, _ => low
  | fuel + 1, low, high =>
    if low < high then
      let mid := (low + high) / 2
      if multiplierBp ≤ multiplierAtTick mid then searchTick multiplierBp fuel low mid
      else searchTick multiplierBp fuel (mid + 1) high
    else low

/-- Source: `elapsedAtMultiplier`. -/
def elapsedAtMultiplier (multiplierBp : ℤ) : ℤ :=
  if multiplierBp ≤ basisPointsOne then 0
  else searchTick multiplierBp maxTicks 0 maxTicks * tickMs

/-- Source: `MAX_MULTIPLIER_BP`. -/
def maxMultiplierBp : ℤ := multiplierAtTick maxTicks

/-- The curve starts at 1.00x and never falls below it. -/
theorem basisPointsOne_le_multiplierAtTick (tick : ℕ) :
    basisPointsOne ≤ multiplierAtTick tick := by
  unfold multiplierAtTick growthNumerator growthDenominator basisPointsOne
  simp only
  rw [Int.le_ediv_iff_mul_le (by positivity)]
  have hpow : (100 : ℤ) ^ min tick maxTicks ≤ 101 ^ min tick maxTicks :=
    pow_le_pow_left₀ (by norm_num) (by norm_num) _
  exact mul_le_mul_of_nonneg_left hpow (by norm_num)

/-- The curve starts at one. -/
theorem basisPointsOne_le_multiplierAtElapsed (elapsedMs : ℤ) :
    basisPointsOne ≤ multiplierAtElapsed elapsedMs :=
  basisPointsOne_le_multiplierAtTick _

/-! ## The curve never falls -/

/-- One tick of the curve never lowers it. -/
theorem multiplierAtTick_le_succ (tick : ℕ) :
    multiplierAtTick tick ≤ multiplierAtTick (tick + 1) := by
  by_cases hcap : maxTicks ≤ tick
  · have heq : min (tick + 1) maxTicks = min tick maxTicks := by omega
    unfold multiplierAtTick
    rw [heq]
  · have hmin : min (tick + 1) maxTicks = min tick maxTicks + 1 := by omega
    unfold multiplierAtTick growthNumerator growthDenominator basisPointsOne
    simp only [hmin]
    generalize min tick maxTicks = n
    -- both quotients over the larger denominator
    have hpow : (0 : ℤ) < 100 ^ n := by positivity
    rw [← Int.mul_ediv_mul_of_pos_left (10000 * 101 ^ n) (100 ^ n) (by norm_num : (0 : ℤ) < 100),
      pow_succ 100 n]
    refine Int.ediv_le_ediv (by positivity) ?_
    have hnum : (0 : ℤ) ≤ 101 ^ n := by positivity
    rw [pow_succ]
    linarith

/-- The curve never falls. -/
theorem multiplierAtTick_mono : Monotone multiplierAtTick :=
  monotone_nat_of_le_succ multiplierAtTick_le_succ

/-- The cap is where the curve ends. -/
theorem basisPointsOne_le_maxMultiplierBp : basisPointsOne ≤ maxMultiplierBp :=
  basisPointsOne_le_multiplierAtTick maxTicks

/-! ## The search -/

/-- The search returns the first tick that reaches the multiplier, if some tick up to `high`
does and none below `low`. -/
theorem searchTick_spec {multiplierBp : ℤ} {fuel : ℕ} : ∀ {low high : ℕ}, low ≤ high →
    high - low ≤ fuel → (∀ tick < low, multiplierAtTick tick < multiplierBp) →
    multiplierBp ≤ multiplierAtTick high →
    (∀ tick < searchTick multiplierBp fuel low high, multiplierAtTick tick < multiplierBp) ∧
      multiplierBp ≤ multiplierAtTick (searchTick multiplierBp fuel low high) := by
  induction fuel with
  | zero =>
    intro low high hle hfuel hbelow hreach
    have heq : high = low := by omega
    exact ⟨hbelow, heq ▸ hreach⟩
  | succ fuel ih =>
    intro low high hle hfuel hbelow hreach
    unfold searchTick
    by_cases hlt : low < high
    · rw [if_pos hlt]
      simp only
      by_cases hmid : multiplierBp ≤ multiplierAtTick ((low + high) / 2)
      · rw [if_pos hmid]
        exact ih (by omega) (by omega) hbelow hmid
      · rw [if_neg hmid]
        refine ih (by omega) (by omega) (fun tick htick => ?_) hreach
        have hle' : tick ≤ (low + high) / 2 := by omega
        exact (multiplierAtTick_mono hle').trans_lt (not_le.1 hmid)
    · rw [if_neg hlt]
      have heq : high = low := by omega
      exact ⟨hbelow, heq ▸ hreach⟩

/-- The multiplier is reached just when the elapsed time says so. -/
theorem multiplierAtElapsed_lt_iff {multiplierBp elapsedMs : ℤ}
    (hone : basisPointsOne ≤ multiplierBp) (hmax : multiplierBp ≤ maxMultiplierBp)
    (helapsed : 0 ≤ elapsedMs) :
    multiplierAtElapsed elapsedMs < multiplierBp ↔ elapsedMs < elapsedAtMultiplier multiplierBp := by
  unfold elapsedAtMultiplier
  by_cases heq : multiplierBp ≤ basisPointsOne
  · rw [if_pos heq]
    have hle := basisPointsOne_le_multiplierAtElapsed elapsedMs
    exact ⟨fun hlt => absurd hlt (by omega), fun hlt => absurd hlt (by omega)⟩
  · rw [if_neg heq]
    obtain ⟨hbelow, hreach⟩ := searchTick_spec (Nat.zero_le maxTicks) (Nat.sub_le maxTicks 0)
      (fun tick htick => absurd htick (Nat.not_lt_zero tick)) hmax
    have htick : tickAtElapsed elapsedMs = (elapsedMs / tickMs).toNat :=
      if_neg (not_lt.2 helapsed)
    have hdiv : 0 ≤ elapsedMs / tickMs := Int.ediv_nonneg helapsed (by decide)
    have hms : elapsedMs < searchTick multiplierBp maxTicks 0 maxTicks * tickMs ↔
        tickAtElapsed elapsedMs < searchTick multiplierBp maxTicks 0 maxTicks := by
      rw [htick, ← Int.ediv_lt_iff_lt_mul (by decide)]
      omega
    rw [hms]
    constructor
    · intro hlt
      by_contra hge
      have hmono := multiplierAtTick_mono (not_lt.1 hge)
      exact absurd hlt (not_lt.2 (hreach.trans hmono))
    · exact hbelow _

end Tessera
