import Tessera.Contracts.CrashCurve

/-!
# From a hash to an outcome, and along a hash chain

Source: `packages/contracts/src/fairness.ts`, `chain.ts`.
-/

namespace Tessera

/-- The value of a hexadecimal digit of either case. -/
def hexDigit (c : Char) : Option ℕ :=
  if '0' ≤ c ∧ c ≤ '9' then some (c.toNat - '0'.toNat)
  else if 'a' ≤ c ∧ c ≤ 'f' then some (c.toNat - 'a'.toNat + 10)
  else if 'A' ≤ c ∧ c ≤ 'F' then some (c.toNat - 'A'.toNat + 10)
  else none

/-- `Number.parseInt(digits, 16)` of a text of hexadecimal digits. -/
def parseHex (digits : List Char) : ℕ :=
  digits.foldl (fun n c => 16 * n + (hexDigit c).getD 0) 0

/-- The test `/^[0-9a-f]+$/i`. -/
def isHex (text : List Char) : Bool :=
  !text.isEmpty && text.all fun c => (hexDigit c).isSome

/-- Source: `INSTANT_BUST_DIVISOR`. -/
def instantBustDivisor : ℕ := 101

/-- Source: `ENTROPY_SPACE`. -/
def entropySpace : ℕ := 2 ^ 52

/-- Source: `crashPointFromHash`, its arithmetic read as exact integers. -/
def crashPointFromHash (hashHex : String) : Except AppError ℤ :=
  let digits := hashHex.toList
  if !isHex digits || digits.length < 14 then
    .error (.rangeError "crashPointFromHash expects at least 14 hex characters")
  else
    let bustRoll := parseHex (digits.take 8)
    if bustRoll % instantBustDivisor = 0 then .ok basisPointsOne
    else
      let entropy : ℤ := parseHex ((digits.drop 8).take 13)
      let raw := (100 * (entropySpace : ℤ) - entropy) / ((entropySpace : ℤ) - entropy)
      let crashPointBp := raw * (basisPointsOne / 100)
      if crashPointBp < basisPointsOne then .ok basisPointsOne
      else .ok (min crashPointBp maxMultiplierBp)

/-- A text of enough hexadecimal digits has a crash point, and it lies on the curve. -/
theorem crashPointFromHash_bounds {hashHex : String} {crashPointBp : ℤ}
    (h : crashPointFromHash hashHex = .ok crashPointBp) :
    basisPointsOne ≤ crashPointBp ∧ crashPointBp ≤ maxMultiplierBp := by
  have hmax := basisPointsOne_le_maxMultiplierBp
  unfold crashPointFromHash at h
  simp only at h
  split at h
  · cases h
  · split at h
    · cases h
      exact ⟨le_rfl, hmax⟩
    · split at h
      · cases h
        exact ⟨le_rfl, hmax⟩
      case isFalse hlow =>
        cases h
        exact ⟨le_min (not_lt.1 hlow) hmax, min_le_right _ _⟩

/-- A hash with enough digits has a crash point. -/
theorem crashPointFromHash_ok {hashHex : String} (hhex : isHex hashHex.toList = true)
    (hlength : 14 ≤ hashHex.toList.length) :
    ∃ crashPointBp, crashPointFromHash hashHex = .ok crashPointBp := by
  unfold crashPointFromHash
  simp only [hhex, Bool.not_true, Bool.false_or, decide_eq_true_eq, not_lt.2 hlength, if_false]
  split
  · exact ⟨_, rfl⟩
  · split <;> exact ⟨_, rfl⟩

/-! ## Hash chains -/

/-- Source: `chain.ts` `ChainProof`. -/
structure ChainProof where
  seed : String
  chainIndex : ℤ
  genesisHash : String
  deriving DecidableEq

/-- Source: `chain.ts` `ChainVerification`. -/
structure ChainVerification where
  valid : Bool
  computedGenesis : String
  steps : ℤ
  deriving DecidableEq

section
variable (sha256 : String → String)

/-- The loop `current = await sha256(current)`, repeated. -/
def hashTimes (steps : ℕ) (seed : String) : String := sha256^[steps] seed

/-- Source: `chain.ts` `verifyChainProof`. -/
def verifyChainProof (proof : ChainProof) : Except AppError ChainVerification :=
  if proof.chainIndex < 1 then
    .error (.rangeError "chainIndex must be a positive integer")
  else
    let current := hashTimes sha256 proof.chainIndex.toNat proof.seed
    .ok { valid := current.toLower == proof.genesisHash.toLower
          computedGenesis := current
          steps := proof.chainIndex }

/-- Source: `chain.ts` `deriveChainSeed`. -/
def deriveChainSeed (terminalSeed : String) (length index : ℤ) : Except AppError String :=
  if index < 1 ∨ length < index then
    .error (.rangeError s!"index {index} is outside a chain of length {length}")
  else .ok (hashTimes sha256 (length - index).toNat terminalSeed)

end

end Tessera
