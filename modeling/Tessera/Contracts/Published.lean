import Tessera.Contracts.Fairness
import Tessera.HashChain.Orbit

/-!
# What a player can check

The chain proof of a revealed seed, and the rule for crash points that is published with it.

* `derive_eq`, `verify_eq` — generation hashes down to a position, verification back up;
* `chainProof_complete_binding` — the proof of a derived seed is accepted, and another seed in
  its place is a collision;
* `publishedCrashPoint` — the published rule, read as exact arithmetic;
* `crashPointFromHash_eq`, `crashPointFromHash_published` — the rule is the draw, up to the cap
  of the curve.

Source: `packages/contracts/src/chain.ts`, `fairness.ts`, and the text of `getProof` in
`src/src/rounds/fairness.service.ts`.
-/

namespace Tessera

open HashChain

/-! ## Chain proofs -/

/-- A text of lower-case hexadecimal digits. -/
def IsLowerHex (text : String) : Prop :=
  ∀ c ∈ text.toList, ('0' ≤ c ∧ c ≤ '9') ∨ ('a' ≤ c ∧ c ≤ 'f')

/-- A lower-case digit is in lower case. -/
theorem toLower_of_lowerHex {c : Char} (h : ('0' ≤ c ∧ c ≤ '9') ∨ ('a' ≤ c ∧ c ≤ 'f')) :
    c.toLower = c := by
  simp only [Char.le_def, UInt32.le_iff_toNat_le] at h
  unfold Char.toLower
  rw [dif_neg]
  rintro ⟨hlow, hhigh⟩
  simp only [ge_iff_le, UInt32.le_iff_toNat_le] at hlow hhigh
  have h9 : '9'.val.toNat = 57 := rfl
  have hA : 'A'.val.toNat = 65 := rfl
  have hZ : 'Z'.val.toNat = 90 := rfl
  have ha : 'a'.val.toNat = 97 := rfl
  omega

/-- Lower-case digits are their own lower case. -/
theorem IsLowerHex.toLower_eq {text : String} (h : IsLowerHex text) : text.toLower = text := by
  rw [← String.toList_inj]
  unfold String.toLower
  rw [String.toList_map]
  calc text.toList.map Char.toLower = text.toList.map id :=
        List.map_congr_left fun c hc => toLower_of_lowerHex (h c hc)
    _ = text.toList := List.map_id _

section
variable {sha256 : String → String} {terminalSeed seed : String} {length index : ℤ}

/-- Deriving the seed at an index hashes the terminal seed as often as it takes. -/
theorem derive_eq (hpos : 1 ≤ index) (hle : index ≤ length) :
    deriveChainSeed sha256 terminalSeed length index =
      .ok (sha256^[(length - index).toNat] terminalSeed) := by
  unfold deriveChainSeed hashTimes
  rw [if_neg (by omega)]

/-- At least one hash is taken, so the comparison of lower-case texts is an equality. -/
theorem verify_eq (hhex : ∀ x, IsLowerHex (sha256 x)) (hpos : 1 ≤ index) (x : String) :
    verifyChainProof sha256 ⟨seed, index, sha256 x⟩ =
      .ok ⟨sha256^[index.toNat] seed == sha256 x, sha256^[index.toNat] seed, index⟩ := by
  obtain ⟨n, hn⟩ : ∃ n, index.toNat = n + 1 := ⟨index.toNat - 1, by omega⟩
  have hcurrent : (sha256^[index.toNat] seed).toLower = sha256^[index.toNat] seed := by
    rw [hn, Function.iterate_succ_apply']
    exact (hhex _).toLower_eq
  unfold verifyChainProof hashTimes
  rw [if_neg (not_lt.2 hpos)]
  simp only
  rw [hcurrent, (hhex x).toLower_eq]

/-- Hashing a derived seed as often as its index says arrives at the genesis hash. -/
theorem genesis_eq (hpos : 1 ≤ index) (hle : index ≤ length) :
    sha256^[index.toNat] (sha256^[(length - index).toNat] terminalSeed) =
      sha256 (sha256^[(length - 1).toNat] terminalSeed) := by
  rw [← Function.iterate_succ_apply' sha256, ← Function.iterate_add_apply]
  congr 1
  omega

/-- Chain proofs are complete and binding. -/
theorem chainProof_complete_binding (hhex : ∀ x, IsLowerHex (sha256 x)) (hpos : 1 ≤ index)
    (hle : index ≤ length) :
    ∃ first seed, deriveChainSeed sha256 terminalSeed length 1 = .ok first ∧
      deriveChainSeed sha256 terminalSeed length index = .ok seed ∧
      verifyChainProof sha256 ⟨seed, index, sha256 first⟩ = .ok ⟨true, sha256 first, index⟩ ∧
      (index < length → ∃ next,
        deriveChainSeed sha256 terminalSeed length (index + 1) = .ok next ∧ sha256 next = seed) ∧
      ∀ other v, other ≠ seed →
        verifyChainProof sha256 ⟨other, index, sha256 first⟩ = .ok v → v.valid = true →
        ∃ k < index.toNat, hashTimes sha256 k other ≠ hashTimes sha256 k seed ∧
          sha256 (hashTimes sha256 k other) = sha256 (hashTimes sha256 k seed) := by
  have hgenesis : sha256^[index.toNat] (sha256^[(length - index).toNat] terminalSeed) =
      sha256 (sha256^[(length - 1).toNat] terminalSeed) := genesis_eq hpos hle
  refine ⟨_, _, derive_eq le_rfl (hpos.trans hle), derive_eq hpos hle, ?_, fun hlt => ?_,
    fun other v hne hv hvalid => ?_⟩
  · rw [verify_eq hhex hpos, hgenesis, beq_self_eq_true]
  · refine ⟨_, derive_eq (by omega) (by omega), ?_⟩
    rw [← Function.iterate_succ_apply' sha256]
    congr 1
    omega
  · rw [verify_eq hhex hpos] at hv
    cases hv
    have hmet : sha256^[index.toNat] other =
        sha256^[index.toNat] (sha256^[(length - index).toNat] terminalSeed) :=
      (beq_iff_eq.1 hvalid).trans hgenesis.symm
    exact exists_merge hne hmet

end

/-- How many times the mark occurs in a text. -/
def marks (text : String) : ℕ := text.toList.count 'a'

/-- A hash of fixed length: 64 digits, marked once more often than the text was. -/
def countingHash (text : String) : String :=
  String.ofList (List.replicate (min (marks text + 1) 64) 'a' ++
    List.replicate (64 - min (marks text + 1) 64) '0')

/-- The hash of the example counts up to its length. -/
theorem marks_countingHash (text : String) : marks (countingHash text) = min (marks text + 1) 64 := by
  have hcount : ∀ k j : ℕ, (List.replicate k 'a' ++ List.replicate j '0').count 'a' = k := by
    intro k j
    rw [List.count_append, List.count_replicate_self, List.count_replicate]
    simp
  show (countingHash text).toList.count 'a' = _
  unfold countingHash
  rw [String.toList_ofList, hcount]

/-- The marks of a text count how often it has been hashed, up to 64. -/
theorem marks_iterate {text : String} (htext : marks text ≤ 64) (n : ℕ) :
    marks (countingHash^[n] text) = min (marks text + n) 64 := by
  induction n with
  | zero => rw [Function.iterate_zero_apply, Nat.add_zero, min_eq_left htext]
  | succ n ih =>
    rw [Function.iterate_succ_apply', marks_countingHash, ih]
    omega

/-- It is written in lower-case digits. -/
theorem countingHash_isLowerHex (text : String) : IsLowerHex (countingHash text) := by
  intro c hc
  unfold countingHash at hc
  rw [String.toList_ofList, List.mem_append] at hc
  rcases hc with hc | hc
  · exact .inr (by rw [List.eq_of_mem_replicate hc]; decide)
  · exact .inl (by rw [List.eq_of_mem_replicate hc]; decide)

/-- The second seed of a chain of three, all of them different; another text with one mark is
accepted in its place, and collides with it. -/
theorem chainProof_complete_binding_second :
    ∃ first seed next, deriveChainSeed countingHash "t" 3 1 = .ok first ∧
      deriveChainSeed countingHash "t" 3 2 = .ok seed ∧
      deriveChainSeed countingHash "t" 3 3 = .ok next ∧ [first, seed, next].Nodup ∧
      countingHash next = seed ∧
      verifyChainProof countingHash ⟨seed, 2, countingHash first⟩ =
        .ok ⟨true, countingHash first, 2⟩ ∧
      verifyChainProof countingHash ⟨"a", 2, countingHash first⟩ =
        .ok ⟨true, countingHash first, 2⟩ ∧
      ∃ k < 2, hashTimes countingHash k "a" ≠ hashTimes countingHash k seed ∧
        countingHash (hashTimes countingHash k "a") = countingHash (hashTimes countingHash k seed) := by
  obtain ⟨first, seed, hfirst, hseed, hverify, hnext, hbinding⟩ :=
    @chainProof_complete_binding countingHash "t" 3 2 countingHash_isLowerHex (by decide) (by decide)
  obtain ⟨next, hderived, hhash⟩ := hnext (by decide)
  obtain rfl : first = countingHash^[2] "t" := by
    rw [derive_eq le_rfl (by decide)] at hfirst
    exact (Except.ok.inj hfirst).symm
  obtain rfl : seed = countingHash^[1] "t" := by
    rw [derive_eq (by decide) (by decide)] at hseed
    exact (Except.ok.inj hseed).symm
  obtain rfl : next = countingHash^[0] "t" := by
    rw [derive_eq (by decide) (by decide)] at hderived
    exact (Except.ok.inj hderived).symm
  have hvalues : [countingHash^[2] "t", countingHash^[1] "t", countingHash^[0] "t"].Nodup ∧
      countingHash^[2] "a" = countingHash (countingHash^[2] "t") ∧
      "a" ≠ countingHash^[1] "t" := by decide +kernel
  have hother : verifyChainProof countingHash ⟨"a", 2, countingHash (countingHash^[2] "t")⟩ =
      .ok ⟨true, countingHash (countingHash^[2] "t"), 2⟩ := by
    rw [verify_eq countingHash_isLowerHex (by decide), show (2 : ℤ).toNat = 2 from rfl,
      hvalues.2.1, beq_self_eq_true]
  exact ⟨_, _, _, hfirst, hseed, hderived, hvalues.1, hhash, hverify, hother,
    hbinding "a" _ hvalues.2.2 hother rfl⟩

/-! ## The published rule -/

/-- The hash of an outcome: 64 hexadecimal digits. -/
structure IsOutcomeHash (text : String) : Prop where
  hex : isHex text.toList = true
  length : text.toList.length = 64

/-- `parseInt(outcomeHash[0..8], 16)`. -/
def bustRoll (outcomeHash : String) : ℕ := parseHex (outcomeHash.toList.take 8)

/-- `parseInt(outcomeHash[8..21], 16)`. -/
def entropy (outcomeHash : String) : ℕ := parseHex ((outcomeHash.toList.drop 8).take 13)

/-- The rule that `getProof` publishes for crash rounds: `if bustRoll % 101 == 0 then 1.00x, else
h = parseInt(outcomeHash[8..21], 16), e = 2^52, crash = floor((100e - h) / (e - h)) / 100`. -/
def publishedCrashPoint (outcomeHash : String) : ℚ :=
  if bustRoll outcomeHash % 101 = 0 then 1
  else
    let h : ℚ := entropy outcomeHash
    let e : ℚ := 2 ^ 52
    ⌊(100 * e - h) / (e - h)⌋ / 100

/-- A multiplier in basis points, 10000 of them to 1.00x. -/
def inBasisPoints (multiplier : ℚ) : ℚ := multiplier * basisPointsOne

/-- The outcomes that the cap of the curve leaves alone: the instant busts, and the draws whose
quotient is at most 997.77x. -/
def WithinCap (outcomeHash : String) : Prop :=
  bustRoll outcomeHash % 101 = 0 ∨
    maxMultiplierBp / 100 * entropy outcomeHash < (maxMultiplierBp / 100 - 99) * 2 ^ 52

/-- Digits that are read after `n` make a number below `n + 1` shifted by their count. -/
theorem foldl_parseHex_lt (digits : List Char) :
    ∀ n : ℕ, digits.foldl (fun n c => 16 * n + (hexDigit c).getD 0) n <
      (n + 1) * 16 ^ digits.length := by
  induction digits with
  | nil => simp
  | cons c rest ih =>
    intro n
    have hdigit : (hexDigit c).getD 0 < 16 := by
      unfold hexDigit
      split
      case isTrue h =>
        have hle : c.toNat ≤ '9'.toNat := h.2
        have h9 : '9'.toNat = 57 := rfl
        have h0 : '0'.toNat = 48 := rfl
        simp only [Option.getD_some]
        omega
      · split
        case isTrue h =>
          have hle : c.toNat ≤ 'f'.toNat := h.2
          have hf : 'f'.toNat = 102 := rfl
          have ha : 'a'.toNat = 97 := rfl
          simp only [Option.getD_some]
          omega
        · split
          case isTrue h =>
            have hle : c.toNat ≤ 'F'.toNat := h.2
            have hf : 'F'.toNat = 70 := rfl
            have ha : 'A'.toNat = 65 := rfl
            simp only [Option.getD_some]
            omega
          · decide
    rw [List.foldl_cons, List.length_cons, pow_succ]
    refine (ih _).trans_le ?_
    calc (16 * n + (hexDigit c).getD 0 + 1) * 16 ^ rest.length
        ≤ ((n + 1) * 16) * 16 ^ rest.length := Nat.mul_le_mul_right _ (by omega)
      _ = (n + 1) * (16 ^ rest.length * 16) := by ring

/-- A text of `n` digits is below `16 ^ n`. -/
theorem parseHex_lt (digits : List Char) : parseHex digits < 16 ^ digits.length := by
  have h := foldl_parseHex_lt digits 0
  rwa [zero_add, one_mul] at h

/-- The entropy is below its bound. -/
theorem entropy_lt (outcomeHash : String) : entropy outcomeHash < entropySpace := by
  have hlength : ((outcomeHash.toList.drop 8).take 13).length ≤ 13 := List.length_take_le _ _
  calc entropy outcomeHash < 16 ^ _ := parseHex_lt _
    _ ≤ 16 ^ 13 := Nat.pow_le_pow_right (by norm_num) hlength
    _ = entropySpace := by norm_num [entropySpace]

/-- The quotient of the draw. -/
def drawnQuotient (outcomeHash : String) : ℤ :=
  (100 * (entropySpace : ℤ) - entropy outcomeHash) / ((entropySpace : ℤ) - entropy outcomeHash)

section
variable {outcomeHash : String}

/-- Exact division of whole numbers, rounded down, is whole-number division. -/
theorem published_quotient (h : bustRoll outcomeHash % 101 ≠ 0) :
    inBasisPoints (publishedCrashPoint outcomeHash) = (drawnQuotient outcomeHash * 100 : ℤ) := by
  have hlt := entropy_lt outcomeHash
  have hfloor : ⌊(100 * (2 ^ 52 : ℚ) - entropy outcomeHash) / (2 ^ 52 - entropy outcomeHash)⌋ =
      drawnQuotient outcomeHash := by
    have hdiv := Rat.floor_intCast_div_natCast (100 * (entropySpace : ℤ) - entropy outcomeHash)
      (entropySpace - entropy outcomeHash)
    rw [Nat.cast_sub hlt.le, Nat.cast_sub hlt.le] at hdiv
    unfold drawnQuotient
    rw [← hdiv]
    congr 2
    push_cast [entropySpace]
    ring
  unfold inBasisPoints publishedCrashPoint
  rw [if_neg h]
  simp only
  rw [hfloor]
  norm_num [basisPointsOne]
  ring

/-- The quotient that is drawn is at least one whole. -/
theorem drawnQuotient_ge (outcomeHash : String) : 100 ≤ drawnQuotient outcomeHash := by
  have hlt := entropy_lt outcomeHash
  unfold drawnQuotient
  rw [Int.le_ediv_iff_mul_le (by omega)]
  omega

/-- The draw, without the text in which the hash comes. -/
theorem crashPointFromHash_draw (h : IsOutcomeHash outcomeHash) :
    crashPointFromHash outcomeHash = .ok (if bustRoll outcomeHash % 101 = 0 then basisPointsOne
      else min (drawnQuotient outcomeHash * 100) maxMultiplierBp) := by
  have hvalid : (!isHex outcomeHash.toList || outcomeHash.toList.length < 14) = false := by
    simp [h.hex, h.length]
  have hquotient := drawnQuotient_ge outcomeHash
  unfold crashPointFromHash
  simp only [hvalid, Bool.false_eq_true, if_false]
  by_cases hbust : bustRoll outcomeHash % 101 = 0
  · have hroll : parseHex (outcomeHash.toList.take 8) % instantBustDivisor = 0 := hbust
    rw [if_pos hroll, if_pos hbust]
  · have hroll : ¬parseHex (outcomeHash.toList.take 8) % instantBustDivisor = 0 := hbust
    rw [if_neg hroll, if_neg hbust]
    have hhundred : basisPointsOne / 100 = 100 := by decide
    have hlow : ¬drawnQuotient outcomeHash * 100 < basisPointsOne := by
      unfold basisPointsOne
      omega
    rw [hhundred]
    exact if_neg hlow

/-- The crash point is the published one, capped where the curve ends. -/
theorem crashPointFromHash_eq (h : IsOutcomeHash outcomeHash) :
    ∃ crashPointBp, crashPointFromHash outcomeHash = .ok crashPointBp ∧
      (crashPointBp : ℚ) =
        min (inBasisPoints (publishedCrashPoint outcomeHash)) maxMultiplierBp := by
  refine ⟨_, crashPointFromHash_draw h, ?_⟩
  by_cases hbust : bustRoll outcomeHash % 101 = 0
  · have hone : inBasisPoints (publishedCrashPoint outcomeHash) = basisPointsOne := by
      unfold inBasisPoints publishedCrashPoint
      rw [if_pos hbust, one_mul]
    rw [if_pos hbust, hone, min_eq_left (Int.cast_le.2 basisPointsOne_le_maxMultiplierBp)]
  · rw [if_neg hbust, published_quotient hbust, Int.cast_min]

/-- The cap leaves a draw alone when its quotient is small enough. -/
theorem withinCap_iff (hbust : bustRoll outcomeHash % 101 ≠ 0) :
    WithinCap outcomeHash ↔ drawnQuotient outcomeHash * 100 ≤ maxMultiplierBp := by
  have hlt := entropy_lt outcomeHash
  have hspace : (entropySpace : ℤ) = 2 ^ 52 := by norm_num [entropySpace]
  have hquotient : drawnQuotient outcomeHash * 100 ≤ maxMultiplierBp ↔
      drawnQuotient outcomeHash < maxMultiplierBp / 100 + 1 := by omega
  rw [hquotient]
  unfold drawnQuotient WithinCap
  rw [Int.ediv_lt_iff_lt_mul (by omega), hspace]
  generalize maxMultiplierBp / 100 = quotient
  constructor
  · rintro (hzero | hsmall)
    · exact absurd hzero hbust
    · linarith
  · intro hsmall
    exact .inr (by linarith)

/-- The published rule gives the crash point exactly where the cap leaves it alone. -/
theorem crashPointFromHash_published (h : IsOutcomeHash outcomeHash) :
    ∃ crashPointBp, crashPointFromHash outcomeHash = .ok crashPointBp ∧
      ((crashPointBp : ℚ) = inBasisPoints (publishedCrashPoint outcomeHash) ↔
        WithinCap outcomeHash) := by
  obtain ⟨crashPointBp, hpoint, heq⟩ := crashPointFromHash_eq h
  refine ⟨crashPointBp, hpoint, ?_⟩
  rw [heq, min_eq_left_iff]
  by_cases hbust : bustRoll outcomeHash % 101 = 0
  · have hone : inBasisPoints (publishedCrashPoint outcomeHash) = basisPointsOne := by
      unfold inBasisPoints publishedCrashPoint
      rw [if_pos hbust, one_mul]
    rw [hone]
    exact iff_of_true (Int.cast_le.2 basisPointsOne_le_maxMultiplierBp) (.inl hbust)
  · rw [withinCap_iff hbust, published_quotient hbust, Int.cast_le]

end

/-- An outcome that is drawn at the far end of the tail. -/
def longestDraw : String :=
  String.ofList ("00000001fffffffffffff".toList ++ List.replicate 43 '0')

theorem longestDraw_isOutcomeHash : IsOutcomeHash longestDraw :=
  ⟨by decide +kernel, by decide +kernel⟩

/-- The rule gives the far end of the tail more than 4 * 10^15 times the stake, the draw 997.77
times. -/
theorem crashPointFromHash_longestDraw :
    IsOutcomeHash longestDraw ∧ crashPointFromHash longestDraw = .ok 9977768 ∧
      inBasisPoints (publishedCrashPoint longestDraw) = (99 * 2 ^ 52 + 1) * 100 ∧
      inBasisPoints (publishedCrashPoint longestDraw) ≠ (9977768 : ℤ) := by
  have hbust : bustRoll longestDraw % 101 ≠ 0 := by decide +kernel
  have hquotient : drawnQuotient longestDraw = 99 * 2 ^ 52 + 1 := by decide +kernel
  refine ⟨longestDraw_isOutcomeHash, by decide +kernel, ?_, ?_⟩
  · rw [published_quotient hbust, hquotient]
    norm_num
  · rw [published_quotient hbust, hquotient]
    norm_num

/-- An outcome in the body of the distribution. -/
def ordinaryDraw : String :=
  String.ofList ("0000000120000000000000".toList ++ List.replicate 42 '0')

/-- It is no instant bust and lies below the cap: 1.14 times the stake by the draw, as by the
rule. -/
theorem crashPointFromHash_published_ordinary :
    bustRoll ordinaryDraw % 101 ≠ 0 ∧ crashPointFromHash ordinaryDraw = .ok 11400 ∧
      inBasisPoints (publishedCrashPoint ordinaryDraw) = 11400 := by
  have hhash : IsOutcomeHash ordinaryDraw := ⟨by decide +kernel, by decide +kernel⟩
  have hvalue : crashPointFromHash ordinaryDraw = .ok 11400 := by decide +kernel
  obtain ⟨crashPointBp, hpoint, hiff⟩ := crashPointFromHash_published hhash
  obtain rfl : crashPointBp = 11400 := Except.ok.inj (hpoint.symm.trans hvalue)
  refine ⟨by decide +kernel, hvalue, ?_⟩
  rw [← hiff.2 (.inr (by decide +kernel))]
  norm_num

end Tessera
