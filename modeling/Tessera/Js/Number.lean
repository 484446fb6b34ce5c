import Mathlib

/-!
# JavaScript numbers

The part of a JavaScript number that programs on whole amounts see: which integers are safe,
how doubles add them, and what a number is when it need not be an integer.

* `isSafeInteger`, `roundToDouble`, `add`, `sum` — integers as doubles;
* `Representable`, `roundToDouble_eq_self_iff` — which integers are doubles;
* `sum_eq`, `sum_eq_zero_iff` — what the roundings along a sum leave of it;
* `Number` — any number, as `Number.isInteger` and comparisons tell it apart;
* `numberOfText_textOfInteger` — what `String` writes for an integer, `Number` reads back.
-/

namespace Js

/-- `Number.MAX_SAFE_INTEGER`. -/
def maxSafeInteger : ℤ := 2 ^ 53 - 1

/-- `Number.isSafeInteger` on an integer. -/
def isSafeInteger (n : ℤ) : Bool :=
  decide (-maxSafeInteger ≤ n ∧ n ≤ maxSafeInteger)

/-- The safe integers are those between the two bounds. -/
theorem isSafeInteger_iff {n : ℤ} :
    isSafeInteger n = true ↔ -maxSafeInteger ≤ n ∧ n ≤ maxSafeInteger := by
  unfold isSafeInteger
  exact decide_eq_true_iff

/-- They are symmetric about zero. -/
theorem isSafeInteger_neg {n : ℤ} (h : isSafeInteger n = true) :
    isSafeInteger (-n) = true := by
  rw [isSafeInteger_iff] at h ⊢
  omega

/-- The nearest multiple of `2 ^ e` to a natural number, ties to an even multiple. -/
def roundToMultiple (m e : ℕ) : ℕ :=
  let quotient := m / 2 ^ e
  let remainder := m % 2 ^ e
  if 2 * remainder < 2 ^ e ∨ (2 * remainder = 2 ^ e ∧ quotient % 2 = 0) then
    quotient * 2 ^ e
  else (quotient + 1) * 2 ^ e

/-- The double nearest to an integer: exact up to `2 ^ 53`, 53 significant bits beyond. -/
def roundToDouble (n : ℤ) : ℤ :=
  if n.natAbs ≤ 2 ^ 53 then n
  else n.sign * roundToMultiple n.natAbs (Nat.log2 n.natAbs - 52)

/-- `a + b` on two integers held as doubles. -/
def add (a b : ℤ) : ℤ := roundToDouble (a + b)

/-- `reduce((acc, p) => acc + p, 0)`. -/
def sum (l : List ℤ) : ℤ := l.foldl add 0

/-! ## Which integers are doubles -/

/-- An integer of at most 53 significant bits, whatever zeros follow them. -/
def Representable (n : ℤ) : Prop := ∃ (m : ℤ) (e : ℕ), m.natAbs ≤ 2 ^ 53 ∧ n = m * 2 ^ e

/-- Every integer of up to 53 bits is a double. -/
theorem representable_of_le {n : ℤ} (h : n.natAbs ≤ 2 ^ 53) : Representable n :=
  ⟨n, 0, h, by rw [pow_zero, mul_one]⟩

/-- A multiple of `2 ^ e` that needs no more than 53 bits above the zeros. -/
theorem representable_of_dvd {n : ℤ} {e : ℕ} (hdvd : (2 ^ e : ℤ) ∣ n)
    (hle : n.natAbs ≤ 2 ^ (53 + e)) : Representable n := by
  obtain ⟨m, rfl⟩ := hdvd
  refine ⟨m, e, ?_, mul_comm _ _⟩
  rw [Int.natAbs_mul, Int.natAbs_pow, pow_add, mul_comm] at hle
  exact Nat.le_of_mul_le_mul_right hle (by positivity)

section
variable {m e : ℕ} {n : ℤ}

/-- Rounding to multiples of a power of two gives such a multiple. -/
theorem dvd_roundToMultiple : 2 ^ e ∣ roundToMultiple m e := by
  unfold roundToMultiple
  simp only
  split <;> exact Nat.dvd_mul_left _ _

/-- A multiple of `2 ^ e` is its own nearest one. -/
theorem roundToMultiple_of_dvd (h : 2 ^ e ∣ m) : roundToMultiple m e = m := by
  have hzero : m % 2 ^ e = 0 := Nat.mod_eq_zero_of_dvd h
  unfold roundToMultiple
  simp only [hzero, mul_zero]
  rw [if_pos (.inl (by positivity)), Nat.div_mul_cancel h]

/-- It does not go below the multiple before. -/
theorem div_mul_le_roundToMultiple : m / 2 ^ e * 2 ^ e ≤ roundToMultiple m e := by
  unfold roundToMultiple
  simp only
  split
  · exact le_rfl
  · exact Nat.mul_le_mul_right _ (Nat.le_succ _)

/-- Nor above the multiple after. -/
theorem roundToMultiple_le : roundToMultiple m e ≤ (m / 2 ^ e + 1) * 2 ^ e := by
  unfold roundToMultiple
  simp only
  split
  · exact Nat.mul_le_mul_right _ (Nat.le_succ _)
  · exact le_rfl

/-- How many bits of a large number are rounded off, and what is left of it. -/
theorem quotient_bounds (h : 2 ^ 53 < m) : 1 ≤ Nat.log2 m - 52 ∧
    2 ^ 52 ≤ m / 2 ^ (Nat.log2 m - 52) ∧ m / 2 ^ (Nat.log2 m - 52) + 1 ≤ 2 ^ 53 := by
  have hne : m ≠ 0 := by omega
  have hlog : 53 ≤ Nat.log2 m := (Nat.le_log2 hne).2 h.le
  have hlow : 2 ^ Nat.log2 m ≤ m := Nat.log2_self_le hne
  have hhigh : m < 2 ^ (Nat.log2 m + 1) := Nat.lt_log2_self
  refine ⟨by omega, ?_, ?_⟩
  · rw [Nat.le_div_iff_mul_le (by positivity), ← pow_add]
    rwa [show 52 + (Nat.log2 m - 52) = Nat.log2 m by omega]
  · rw [Nat.succ_le_iff, Nat.div_lt_iff_lt_mul (by positivity), ← pow_add]
    rwa [show 53 + (Nat.log2 m - 52) = Nat.log2 m + 1 by omega]

/-- A large integer is rounded to the 53 leading bits. -/
theorem roundToDouble_of_lt (h : 2 ^ 53 < n.natAbs) :
    (roundToDouble n).natAbs = roundToMultiple n.natAbs (Nat.log2 n.natAbs - 52) := by
  have hsign : n.sign.natAbs = 1 := Int.natAbs_sign_of_ne_zero (by omega)
  unfold roundToDouble
  rw [if_neg (not_le.2 h), Int.natAbs_mul, hsign, one_mul, Int.natAbs_natCast]

/-- A number too large to be held exactly stays large. -/
theorem le_natAbs_roundToDouble (h : 2 ^ 53 < n.natAbs) : 2 ^ 53 ≤ (roundToDouble n).natAbs := by
  obtain ⟨hone, hlow, -⟩ := quotient_bounds h
  rw [roundToDouble_of_lt h]
  calc 2 ^ 53 = 2 ^ 52 * 2 ^ 1 := by norm_num
    _ ≤ n.natAbs / 2 ^ (Nat.log2 n.natAbs - 52) * 2 ^ (Nat.log2 n.natAbs - 52) :=
        Nat.mul_le_mul hlow (Nat.pow_le_pow_right (by norm_num) hone)
    _ ≤ _ := div_mul_le_roundToMultiple

/-- Only zero is rounded to zero. -/
theorem roundToDouble_eq_zero_iff : roundToDouble n = 0 ↔ n = 0 := by
  by_cases h : n.natAbs ≤ 2 ^ 53
  · unfold roundToDouble
    rw [if_pos h]
  · have hlarge := le_natAbs_roundToDouble (not_le.1 h)
    constructor
    · intro hzero
      rw [hzero] at hlarge
      exact absurd hlarge (by decide)
    · rintro rfl
      exact absurd (Nat.zero_le _) h

/-- Rounding does not cross a power of two. -/
theorem natAbs_roundToDouble_le {k : ℕ} (h : n.natAbs < 2 ^ k) : (roundToDouble n).natAbs ≤ 2 ^ k := by
  by_cases hsmall : n.natAbs ≤ 2 ^ 53
  · unfold roundToDouble
    rw [if_pos hsmall]
    exact h.le
  · obtain ⟨hone, -, hhigh⟩ := quotient_bounds (not_le.1 hsmall)
    have hlog : Nat.log2 n.natAbs < k := (Nat.log2_lt (by omega)).2 h
    rw [roundToDouble_of_lt (not_le.1 hsmall)]
    calc roundToMultiple n.natAbs (Nat.log2 n.natAbs - 52)
        ≤ 2 ^ 53 * 2 ^ (Nat.log2 n.natAbs - 52) :=
          roundToMultiple_le.trans (Nat.mul_le_mul_right _ hhigh)
      _ = 2 ^ (53 + (Nat.log2 n.natAbs - 52)) := (pow_add _ _ _).symm
      _ ≤ 2 ^ k := Nat.pow_le_pow_right (by norm_num) (by omega)

/-- Rounding gives a double. -/
theorem representable_roundToDouble (n : ℤ) : Representable (roundToDouble n) := by
  by_cases h : n.natAbs ≤ 2 ^ 53
  · unfold roundToDouble
    rw [if_pos h]
    exact representable_of_le h
  · obtain ⟨-, -, hhigh⟩ := quotient_bounds (not_le.1 h)
    refine representable_of_dvd (e := Nat.log2 n.natAbs - 52) ?_ ?_
    · rw [← Int.natAbs_dvd_natAbs, roundToDouble_of_lt (not_le.1 h), Int.natAbs_pow]
      exact dvd_roundToMultiple
    · rw [roundToDouble_of_lt (not_le.1 h), pow_add]
      exact roundToMultiple_le.trans (Nat.mul_le_mul_right _ hhigh)

/-- A double is rounded to itself. -/
theorem Representable.roundToDouble_eq (h : Representable n) : roundToDouble n = n := by
  obtain ⟨m, e, hm, rfl⟩ := h
  by_cases hsmall : (m * 2 ^ e).natAbs ≤ 2 ^ 53
  · unfold roundToDouble
    rw [if_pos hsmall]
  · -- what is rounded off is among the zeros
    have habs : (m * 2 ^ e).natAbs = m.natAbs * 2 ^ e := by
      rw [Int.natAbs_mul, Int.natAbs_pow]
      rfl
    have hdvd : 2 ^ (Nat.log2 (m * 2 ^ e).natAbs - 52) ∣ (m * 2 ^ e).natAbs := by
      rw [habs]
      rcases hm.lt_or_eq with hlt | heq
      · refine dvd_mul_of_dvd_right (Nat.pow_dvd_pow 2 ?_) _
        have hne : m.natAbs * 2 ^ e ≠ 0 := by
          rw [← habs]
          omega
        have hlog : Nat.log2 (m.natAbs * 2 ^ e) < 53 + e := by
          rw [Nat.log2_lt hne, pow_add]
          exact Nat.mul_lt_mul_of_pos_right hlt (by positivity)
        omega
      · rw [heq, ← pow_add, Nat.log2_two_pow]
        exact Nat.pow_dvd_pow 2 (by omega)
    unfold roundToDouble
    rw [if_neg hsmall, roundToMultiple_of_dvd hdvd, Int.sign_mul_natAbs]

/-- Just the doubles are not rounded. -/
theorem roundToDouble_eq_self_iff : roundToDouble n = n ↔ Representable n :=
  ⟨fun h => h ▸ representable_roundToDouble n, Representable.roundToDouble_eq⟩

end

/-! ## Sums -/

/-- An addition whose exact result is a double rounds nothing. -/
theorem add_eq {a b : ℤ} (h : Representable (a + b)) : add a b = a + b := h.roundToDouble_eq

/-- A sum whose partial sums are doubles is exact. -/
theorem foldl_add_eq (l : List ℤ) : ∀ acc : ℤ,
    (∀ k < l.length, Representable (acc + (l.take (k + 1)).sum)) → l.foldl add acc = acc + l.sum := by
  induction l with
  | nil => simp
  | cons a rest ih =>
    intro acc h
    have hfirst : add acc a = acc + a := add_eq (by simpa using h 0 (by simp))
    rw [List.foldl_cons, hfirst, ih, List.sum_cons, add_assoc]
    intro k hk
    have hnext := h (k + 1) (by simpa using hk)
    rwa [List.take_succ_cons, List.sum_cons, ← add_assoc] at hnext

/-- A sum all of whose exact partial sums are doubles is exact. -/
theorem sum_eq {l : List ℤ} (h : ∀ k < l.length, Representable (l.take (k + 1)).sum) :
    sum l = l.sum := by
  unfold sum
  rw [foldl_add_eq l 0 (by simpa using h), zero_add]

/-- The last two additions tell zero from anything else: a safe integer does not make up for a
partial sum that is too large to be exact. -/
theorem add_add_eq_zero_iff (acc a : ℤ) {b : ℤ} (hb : b.natAbs < 2 ^ 53) :
    add (add acc a) b = 0 ↔ acc + a + b = 0 := by
  unfold add
  rw [roundToDouble_eq_zero_iff]
  by_cases hsmall : (acc + a).natAbs ≤ 2 ^ 53
  · rw [(representable_of_le hsmall).roundToDouble_eq]
  · have hlarge := le_natAbs_roundToDouble (not_le.1 hsmall)
    refine iff_of_false ?_ ?_ <;> omega

/-- It is enough for the test against zero that all but the last are doubles. -/
theorem foldl_add_eq_zero_iff (l : List ℤ) (hsafe : ∀ a ∈ l, a.natAbs < 2 ^ 53) : ∀ acc : ℤ,
    (∀ k, k + 1 < l.length → Representable (acc + (l.take k).sum)) →
      (l.foldl add acc = 0 ↔ acc + l.sum = 0) := by
  induction l with
  | nil => simp
  | cons a rest ih =>
    intro acc h
    rcases rest with _ | ⟨b, _ | ⟨c, rest⟩⟩
    · simp [add, roundToDouble_eq_zero_iff]
    · have hb : b.natAbs < 2 ^ 53 := hsafe b (by simp)
      simpa [add_assoc] using add_add_eq_zero_iff acc a hb
    · have hfirst : add acc a = acc + a := add_eq (by simpa using h 1 (by simp))
      have hrest := ih (fun x hx => hsafe x (List.mem_cons_of_mem a hx)) (acc + a) fun k hk => by
        have hnext := h (k + 1) (by simpa using hk)
        rwa [List.take_succ_cons, List.sum_cons, ← add_assoc] at hnext
      rw [List.foldl_cons, hfirst, hrest, List.sum_cons (a := a), add_assoc]

/-- A sum of safe integers is zero exactly when the exact sum is, if all exact partial sums before
the last two are doubles. -/
theorem sum_eq_zero_iff {l : List ℤ} (hsafe : ∀ a ∈ l, a.natAbs < 2 ^ 53)
    (h : ∀ k, k + 1 < l.length → Representable (l.take k).sum) : sum l = 0 ↔ l.sum = 0 := by
  have hiff := foldl_add_eq_zero_iff l hsafe 0 (by simpa using h)
  rwa [zero_add] at hiff

/-! ## Numbers that need not be integers -/

/-- A JavaScript number, as far as `Number.isInteger` and comparisons tell numbers apart. -/
inductive Number
  | integer (n : ℤ)
  | fraction (q : ℚ) (notInteger : q.den ≠ 1)
  | infinity (negative : Bool)
  | nan
  deriving DecidableEq

/-- `Number.isInteger`, with the integer. -/
def Number.asInteger : Number → Option ℤ
  | .integer n => some n
  | _ => none

/-- `String(x)` of an integer. -/
def textOfInteger (n : ℤ) : String := toString n

/-- `Number(text)` of a text that `String` wrote for an integer; any other text is read as
something that is not an integer. -/
def numberOfText (text : String) : Number :=
  match text.toInt? with
  | some n => .integer n
  | none => .nan

/-- An integer that is written as a text is read back. -/
theorem numberOfText_textOfInteger (n : ℤ) : numberOfText (textOfInteger n) = .integer n := by
  have h : (textOfInteger n).toInt? = some n := Int.toInt?_repr n
  unfold numberOfText
  rw [h]

end Js
