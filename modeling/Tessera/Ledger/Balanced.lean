import Tessera.Ledger.Service

/-!
# The two balance checks

A list of postings is checked twice: by the application, which adds the amounts as doubles, and by
the deferred trigger, which adds them exactly.  The checks agree as long as no addition before the
last two rounds anything; the first rounding that does matter can be made to hide an imbalance.

* `assertBalanced_iff`, `DatabaseBalanced` — the two checks;
* `Unrounded`, `checks_agree` — where they agree;
* `rounding_hides` — beyond that, on some list that goes on from the rounded leg, they do not.

Source: `src/src/ledger/ledger.service.ts` `assertBalanced`,
`migrations/1757900000000_initial-ledger.sql` `assert_transaction_balanced`.
-/

namespace Tessera

/-! ## The two checks -/

/-- The amounts of a list of postings. -/
def amounts (postings : List Posting) : List ℤ := postings.map fun p => p.amount.minor

/-- The application accepts a list exactly when its sum in doubles is zero. -/
theorem assertBalanced_iff (input : PostInput) :
    assertBalanced input = .ok () ↔ 2 ≤ input.postings.length ∧
      Js.sum (amounts input.postings) = 0 ∧ ∀ p ∈ input.postings, p.amount.minor ≠ 0 := by
  have hzero : ((input.postings.any fun p => p.amount.minor == 0) = true) ↔
      ¬∀ p ∈ input.postings, p.amount.minor ≠ 0 := by
    simp [List.any_eq_true]
  unfold assertBalanced
  show (if _ then _ else if Js.sum (amounts input.postings) ≠ 0 then _ else _ : Except AppError Unit)
    = _ ↔ _
  by_cases hlength : input.postings.length < 2
  · rw [if_pos hlength]
    constructor
    · intro h
      cases h
    · rintro ⟨hlong, -⟩
      omega
  · rw [if_neg hlength]
    by_cases hsum : Js.sum (amounts input.postings) = 0
    · rw [if_neg (not_not.2 hsum)]
      by_cases hany : ∀ p ∈ input.postings, p.amount.minor ≠ 0
      · rw [if_neg (fun h => hzero.1 h hany)]
        exact iff_of_true rfl ⟨by omega, hsum, hany⟩
      · rw [if_pos (hzero.2 hany)]
        constructor
        · intro h
          cases h
        · rintro ⟨-, -, hall⟩
          exact absurd hall hany
    · rw [if_pos hsum]
      constructor
      · intro h
        cases h
      · rintro ⟨-, hzero, -⟩
        exact absurd hzero hsum

/-- The tables with the entries of one journal row. -/
def entered (transactionId : Uuid) (postings : List Posting) : Db where
  entries := postings.map fun p => ⟨0, transactionId, p.accountId, p.amount.minor, 0⟩

/-- The database accepts a list: the CHECK constraint on each entry, and the deferred trigger. -/
def DatabaseBalanced (postings : List Posting) : Prop :=
  (∀ p ∈ postings, p.amount.minor ≠ 0) ∧
    ∀ transactionId, (entered transactionId postings).assertTransactionBalanced transactionId = .ok ()

/-- The deferred trigger and the CHECK constraint, as one condition on the amounts. -/
theorem databaseBalanced_iff (postings : List Posting) :
    DatabaseBalanced postings ↔ 2 ≤ postings.length ∧ (amounts postings).sum = 0 ∧
      ∀ p ∈ postings, p.amount.minor ≠ 0 := by
  have hpostings : ∀ id, (entered id postings).postings id = (entered id postings).entries := by
    intro id
    refine List.filter_eq_self.2 fun e he => ?_
    obtain ⟨p, -, rfl⟩ := List.mem_map.1 he
    simp
  have hlegs : ∀ id, ((entered id postings).postings id).length = postings.length := by
    intro id
    rw [hpostings]
    exact List.length_map _
  have htotal : ∀ id, (((entered id postings).postings id).map Entry.amount).sum =
      (amounts postings).sum := by
    intro id
    rw [hpostings]
    unfold entered amounts
    rw [List.map_map]
    rfl
  have htrigger : ∀ id, (entered id postings).assertTransactionBalanced id = .ok () ↔
      2 ≤ postings.length ∧ (amounts postings).sum = 0 := by
    intro id
    unfold Db.assertTransactionBalanced
    simp only [hlegs, htotal]
    split
    · constructor
      · intro h
        cases h
      · rintro ⟨hlong, -⟩
        omega
    · split
      case isTrue hsum =>
        constructor
        · intro h
          cases h
        · rintro ⟨-, hzero⟩
          exact absurd hzero hsum
      case isFalse hsum => exact iff_of_true rfl ⟨by omega, not_not.1 hsum⟩
  unfold DatabaseBalanced
  constructor
  · rintro ⟨hall, hid⟩
    obtain ⟨hlong, hsum⟩ := (htrigger 0).1 (hid 0)
    exact ⟨hlong, hsum, hall⟩
  · rintro ⟨hlong, hsum, hall⟩
    exact ⟨hall, fun id => (htrigger id).2 ⟨hlong, hsum⟩⟩

/-! ## Where they agree -/

/-- A leg is zero, or a double holds every exact partial sum of the amounts but the last two.  Up to
three legs that is always so, and with any number of legs if the partial sums are at most `2 ^ 53`
in absolute value. -/
def Unrounded (postings : List Posting) : Prop :=
  (∃ p ∈ postings, p.amount.minor = 0) ∨
    ∀ k, k + 1 < postings.length → Js.Representable ((amounts postings).take k).sum

/-- Every amount is below 2^53. -/
theorem natAbs_amount_lt (m : Money) : m.minor.natAbs < 2 ^ 53 := by
  have hsafe := Js.isSafeInteger_iff.1 m.safe
  have hmax : Js.maxSafeInteger = 2 ^ 53 - 1 := rfl
  omega

/-- So is every leg. -/
theorem amounts_safe (postings : List Posting) : ∀ a ∈ amounts postings, a.natAbs < 2 ^ 53 := by
  intro a ha
  obtain ⟨p, -, rfl⟩ := List.mem_map.1 ha
  exact natAbs_amount_lt p.amount

/-- Up to three legs, nothing is rounded that matters. -/
theorem unrounded_of_length {postings : List Posting} (h : postings.length ≤ 3) :
    Unrounded postings := by
  refine .inr fun k hk => Js.representable_of_le ?_
  obtain rfl | rfl : k = 0 ∨ k = 1 := by omega
  · simp
  · obtain _ | ⟨p, rest⟩ := postings
    · simp [amounts]
    · simpa [amounts] using (natAbs_amount_lt p.amount).le

/-- The two checks agree on every list along which nothing is rounded that matters. -/
theorem checks_agree (input : PostInput) (h : Unrounded input.postings) :
    assertBalanced input = .ok () ↔ DatabaseBalanced input.postings := by
  rw [assertBalanced_iff, databaseBalanced_iff]
  rcases h with ⟨p, hp, hzero⟩ | hexact
  · exact iff_of_false (fun h => h.2.2 p hp hzero) fun h => h.2.2 p hp hzero
  · rw [Js.sum_eq_zero_iff (amounts_safe _)]
    intro k hk
    exact hexact k (by simpa [amounts] using hk)

/-- The house and the escrow account exchange the largest amount twice, in partial sums of up to
`2 ^ 54`. -/
def largestTwice : PostInput where
  kind := .BET_PLACED
  reference := none
  postings := [⟨houseId, ⟨2 ^ 53 - 1, by decide⟩⟩, ⟨escrowId, ⟨2 ^ 53 - 1, by decide⟩⟩,
    ⟨houseId, ⟨1 - 2 ^ 53, by decide⟩⟩, ⟨escrowId, ⟨1 - 2 ^ 53, by decide⟩⟩]

theorem checks_agree_largestTwice :
    assertBalanced largestTwice = .ok () ∧ DatabaseBalanced largestTwice.postings := by
  have haccepted : assertBalanced largestTwice = .ok () := by decide +kernel
  refine ⟨haccepted, (checks_agree largestTwice (.inr fun k hk => ?_)).1 haccepted⟩
  have hk' : k + 1 < 4 := hk
  obtain rfl | rfl | rfl : k = 0 ∨ k = 1 ∨ k = 2 := by omega
  · exact Js.representable_of_le (by decide +kernel)
  · exact Js.representable_of_le (by decide +kernel)
  · exact ⟨2 ^ 53 - 1, 1, by decide, by decide +kernel⟩

/-! ## Where they do not -/

/-- A list with four legs, the last of them free. -/
def legs (last : Money) : PostInput where
  kind := .BET_PLACED
  reference := none
  postings := [⟨houseId, ⟨2 ^ 53 - 1, by decide⟩⟩, ⟨escrowId, ⟨2, by decide⟩⟩,
    ⟨houseId, ⟨1 - 2 ^ 53, by decide⟩⟩, ⟨escrowId, last⟩]

/-- Rounding hides an imbalance of one unit, and invents one. -/
theorem checks_disagree :
    (assertBalanced (legs ⟨-1, by decide⟩) = .ok () ∧
        ¬DatabaseBalanced (legs ⟨-1, by decide⟩).postings) ∧
      assertBalanced (legs ⟨-2, by decide⟩) = .error (.unbalancedTransaction (-1)) ∧
        DatabaseBalanced (legs ⟨-2, by decide⟩).postings := by
  refine ⟨⟨by decide +kernel, ?_⟩, by decide +kernel, ?_⟩
  · rw [databaseBalanced_iff]
    decide +kernel
  · rw [databaseBalanced_iff]
    decide +kernel

/-- A double of ordinary size is brought down to zero by safe amounts, and nothing is rounded. -/
theorem brought_down (sum : ℤ) (hsum : Js.Representable sum) (hle : sum.natAbs ≤ 2 ^ 105)
    (hne : sum ≠ 0) : ∃ rest : List ℤ, (∀ a ∈ rest, a ≠ 0 ∧ a.natAbs < 2 ^ 53) ∧
      rest.foldl Js.add sum = 0 ∧ rest.sum = -sum := by
  induction hsize : sum.natAbs using Nat.strong_induction_on generalizing sum with
  | _ size ih =>
  subst hsize
  by_cases hsmall : sum.natAbs < 2 ^ 53
  · -- one amount is enough
    refine ⟨[-sum], ?_, ?_, by simp⟩
    · rw [List.forall_mem_singleton]
      omega
    · rw [List.foldl_cons, List.foldl_nil, Js.add_eq, add_neg_cancel]
      rw [add_neg_cancel]
      exact Js.representable_of_le (by simp)
  · -- a step towards zero, by a multiple of the last bit of the sum
    obtain ⟨e, he, hdvd, hbits⟩ : ∃ e ≤ 52, (2 ^ e : ℤ) ∣ sum ∧ sum.natAbs ≤ 2 ^ (53 + e) := by
      obtain ⟨m, e, hm, rfl⟩ := hsum
      by_cases he : e ≤ 52
      · refine ⟨e, he, Dvd.intro_left m rfl, ?_⟩
        rw [Int.natAbs_mul, Int.natAbs_pow, pow_add]
        exact Nat.mul_le_mul_right _ hm
      · exact ⟨52, le_rfl, Dvd.dvd.mul_left (pow_dvd_pow 2 (by omega)) m, hle⟩
    obtain ⟨a, ha, hcloser⟩ : ∃ a : ℤ, (a = 2 ^ 52 ∨ a = -2 ^ 52) ∧
        (sum + a).natAbs + 2 ^ 52 = sum.natAbs := by
      rcases lt_or_gt_of_ne hne with hneg | hpos
      · exact ⟨2 ^ 52, .inl rfl, by omega⟩
      · exact ⟨-2 ^ 52, .inr rfl, by omega⟩
    have hstep : (2 ^ e : ℤ) ∣ a := by
      have hpow : (2 ^ e : ℤ) ∣ 2 ^ 52 := pow_dvd_pow 2 he
      rcases ha with rfl | rfl
      · exact hpow
      · exact hpow.neg_right
    have hnext : Js.Representable (sum + a) :=
      Js.representable_of_dvd (hdvd.add hstep) (by omega)
    obtain ⟨rest, hrest, hfold, htotal⟩ := ih _ (by omega) (sum + a) hnext (by omega) (by omega) rfl
    refine ⟨a :: rest, List.forall_mem_cons.2 ⟨by omega, hrest⟩, ?_, ?_⟩
    · rw [List.foldl_cons, Js.add_eq hnext, hfold]
    · rw [List.sum_cons, htotal]
      ring

/-- Any safe amounts are those of some postings. -/
theorem exists_amounts : ∀ l : List ℤ, (∀ a ∈ l, a.natAbs < 2 ^ 53) →
    ∃ postings, amounts postings = l := by
  intro l
  induction l with
  | nil => exact fun _ => ⟨[], rfl⟩
  | cons a rest ih =>
    intro h
    obtain ⟨ha, hrest⟩ := List.forall_mem_cons.1 h
    obtain ⟨postings, rfl⟩ := ih hrest
    have hsafe : Js.isSafeInteger a = true := by
      rw [Js.isSafeInteger_iff, Js.maxSafeInteger]
      omega
    exact ⟨⟨houseId, ⟨a, hsafe⟩⟩ :: postings, rfl⟩

/-- A sum of safe integers is bounded by their number. -/
theorem natAbs_sum_le {l : List ℤ} (h : ∀ a ∈ l, a.natAbs < 2 ^ 53) :
    l.sum.natAbs ≤ l.length * 2 ^ 53 := by
  induction l with
  | nil => simp
  | cons a rest ih =>
    obtain ⟨ha, hrest⟩ := List.forall_mem_cons.1 h
    have hsum := ih hrest
    rw [List.sum_cons, List.length_cons, Nat.succ_mul]
    omega

/-- The addition that rounds first rounds the exact sum. -/
theorem sum_eq_roundToDouble {l : List ℤ}
    (h : ∀ k < l.length, Js.Representable (l.take k).sum) :
    Js.sum l = Js.roundToDouble l.sum := by
  rcases List.eq_nil_or_concat l with rfl | ⟨first, a, rfl⟩
  · rfl
  · have hfirst : Js.sum first = first.sum := by
      refine Js.sum_eq fun k hk => ?_
      have hk' := h (k + 1) (by simpa using hk)
      rwa [List.concat_eq_append, List.take_append_of_le_length (by omega)] at hk'
    unfold Js.sum at hfirst ⊢
    rw [List.concat_eq_append, List.foldl_append, hfirst, List.foldl_cons, List.foldl_nil,
      List.sum_append, List.sum_singleton]
    rfl

/-- No condition on the legs up to the first one whose addition rounds could be wider: whatever they
are, there are further legs with which the application accepts what the database refuses. -/
theorem rounding_hides (input : PostInput) (hlength : input.postings.length < 2 ^ 32)
    (hlegs : ∀ p ∈ input.postings, p.amount.minor ≠ 0)
    (hexact : ∀ k < input.postings.length, Js.Representable ((amounts input.postings).take k).sum)
    (hrounds : ¬Js.Representable (amounts input.postings).sum) :
    ∃ rest, assertBalanced { input with postings := input.postings ++ rest } = .ok () ∧
      ¬DatabaseBalanced (input.postings ++ rest) := by
  have hlength' : (amounts input.postings).length = input.postings.length := List.length_map _
  have hsum : Js.sum (amounts input.postings) = Js.roundToDouble (amounts input.postings).sum :=
    sum_eq_roundToDouble (by rwa [hlength'])
  have hlarge : 2 ^ 53 < (amounts input.postings).sum.natAbs :=
    not_le.1 fun hle => hrounds (Js.representable_of_le hle)
  have hsize := natAbs_sum_le (amounts_safe input.postings)
  have hnonempty : input.postings ≠ [] := by
    intro hnil
    rw [hnil] at hlarge
    exact absurd hlarge (by decide)
  -- the amounts that take the rounded sum to zero
  obtain ⟨l, hl, hfold, htotal⟩ := brought_down _ (Js.representable_roundToDouble _)
    (Js.natAbs_roundToDouble_le (n := (amounts input.postings).sum) (k := 85) (by omega) |>.trans
      (by norm_num))
    (fun hzero => by rw [Js.roundToDouble_eq_zero_iff] at hzero; omega)
  obtain ⟨rest, rfl⟩ := exists_amounts l fun a ha => (hl a ha).2
  have happend : amounts (input.postings ++ rest) = amounts input.postings ++ amounts rest :=
    List.map_append
  refine ⟨rest, (assertBalanced_iff _).2 ⟨?_, ?_, ?_⟩, ?_⟩
  · have hrest : rest ≠ [] := by
      rintro rfl
      exact hrounds (Js.roundToDouble_eq_self_iff.1 (by
        have hzero : Js.roundToDouble (amounts input.postings).sum = 0 := hfold
        rw [hzero, eq_comm, ← Js.roundToDouble_eq_zero_iff, hzero]))
    have hfirst := List.length_pos_of_ne_nil hnonempty
    have hlast := List.length_pos_of_ne_nil hrest
    simp only [List.length_append]
    omega
  · have hfolded : (amounts rest).foldl Js.add (Js.sum (amounts input.postings)) = 0 := hsum ▸ hfold
    show Js.sum (amounts (input.postings ++ rest)) = 0
    rw [happend]
    unfold Js.sum at hfolded ⊢
    rw [List.foldl_append, hfolded]
  · intro p hp
    rcases List.mem_append.1 hp with hp | hp
    · exact hlegs p hp
    · exact (hl _ (List.mem_map_of_mem hp)).1
  · rw [databaseBalanced_iff]
    rintro ⟨-, hzero, -⟩
    rw [happend, List.sum_append, htotal] at hzero
    exact hrounds (Js.roundToDouble_eq_self_iff.1 (by omega))

end Tessera
