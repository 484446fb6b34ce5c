import Tessera.Books.Closing
import Tessera.Rounds.Outcomes
import Tessera.Transactions.Monitor

/-!
# The table and the wheel

Which selections the validator lets in, and what a mix of accepted bets pays over the whole wheel.

* `OnTable`, `Inherited` — the selections of the table, and the names that come with every object;
* `assertValidSelection_iff` — the validator accepts the two, and nothing else;
* `assertValidSelection_table` — the table is what it accepts, the inherited names apart;
* `Bet.postingsOn` — what is posted for a roulette bet on a pocket;
* `settleRouletteBet_posts`, `settleRouletteBet_journal` — the service posts these and no others;
* `wheel_settles` — whatever the bets, the wheel pays 36 times what was staked.

Source: `packages/contracts/src/roulette.ts`, `rounds.service.ts` `priceSelection`,
`round-engine.service.ts` `settleRouletteBet`, `settleLostBet`.
-/

namespace Tessera

open Transactions Transactions.Program

/-! ## The table -/

/-- The selections of the table. -/
def OnTable (selection : RouletteSelection) : Prop :=
  (selection.type ∈ ["RED", "BLACK", "ODD", "EVEN", "LOW", "HIGH"] ∧ selection.value = none) ∨
    (selection.type = "STRAIGHT" ∧
      ∃ n : ℤ, selection.value = some (.integer n) ∧ 0 ≤ n ∧ n ≤ 36) ∨
    (selection.type ∈ ["DOZEN", "COLUMN"] ∧
      ∃ n : ℤ, selection.value = some (.integer n) ∧ 1 ≤ n ∧ n ≤ 3)

/-- A type that is only a name that every object inherits, without a number. -/
def Inherited (selection : RouletteSelection) : Prop :=
  selection.type ∈ objectPrototypeNames ∧ selection.value = none

/-- The odds are a number above even money, and every pocket is won or lost. -/
def Answers (selection : RouletteSelection) : Prop :=
  (∃ odds, oddsForSelection selection = .ok (some odds) ∧ basisPointsOne < odds) ∧
    ∀ pocket : ℤ, 0 ≤ pocket → pocket ≤ 36 →
      ∃ wins, selectionWins selection pocket = .ok (some wins)

/-- The validator accepts what is on the table and nothing else, and what it accepts can be
priced and settled. -/
def Checked (selection : RouletteSelection) : Prop :=
  (assertValidSelection selection = .ok () ↔ OnTable selection) ∧
    (assertValidSelection selection = .ok () → Answers selection)

/-- The value of a type that takes none. -/
theorem assertValidSelection_plain {type : String} (hknown : inRouletteOdds type = true)
    (hplain : (type == "STRAIGHT" || type == "DOZEN" || type == "COLUMN") = false)
    (value : Option Js.Number) : assertValidSelection ⟨type, value⟩ = .ok () ↔ value = none := by
  unfold assertValidSelection
  simp only [hknown, hplain, Bool.not_true, Bool.not_false, Bool.false_eq_true, if_false, if_true]
  cases value <;> simp

/-- A value is the integer that it is written as. -/
theorem asInteger_eq_some {value : Option Js.Number} {n : ℤ} :
    value.bind Js.Number.asInteger = some n ↔ value = some (.integer n) := by
  cases value with
  | none => simp
  | some x => cases x <;> simp [Js.Number.asInteger]

/-- The value of a type that takes a number within bounds. -/
theorem assertValidSelection_numbered {type : String} (low high : ℤ)
    (hknown : inRouletteOdds type = true)
    (hnumbered : (type == "STRAIGHT" || type == "DOZEN" || type == "COLUMN") = true)
    (hbounds : ∀ n : ℤ, (type == "STRAIGHT" && (decide (n < 0) || decide (36 < n))) = false ∧
      ((type == "DOZEN" || type == "COLUMN") && (decide (n < 1) || decide (3 < n))) = false ↔
        low ≤ n ∧ n ≤ high) (value : Option Js.Number) :
    assertValidSelection ⟨type, value⟩ = .ok () ↔
      ∃ n : ℤ, value = some (.integer n) ∧ low ≤ n ∧ n ≤ high := by
  unfold assertValidSelection
  simp only [hknown, hnumbered, Bool.not_true, Bool.false_eq_true, if_false]
  cases hvalue : value.bind Js.Number.asInteger with
  | none =>
    constructor
    · intro h
      cases h
    · rintro ⟨n, hn, -⟩
      rw [asInteger_eq_some.2 hn] at hvalue
      cases hvalue
  | some n =>
    have hn := asInteger_eq_some.1 hvalue
    simp only [hn, Option.some.injEq, Js.Number.integer.injEq, exists_eq_left', ← hbounds n]
    split
    case isTrue h => simp [h]
    case isFalse h =>
      split
      case isTrue h' => simp [h']
      case isFalse h' => simp [Bool.not_eq_true _ ▸ h, Bool.not_eq_true _ ▸ h']

/-- The validator accepts the table and the inherited names. -/
theorem assertValidSelection_iff (selection : RouletteSelection) :
    assertValidSelection selection = .ok () ↔ OnTable selection ∨ Inherited selection := by
  obtain ⟨type, value⟩ := selection
  by_cases hown : (RouletteBetType.ofText type).isSome = true
  · obtain ⟨known, hknown⟩ := Option.isSome_iff_exists.1 hown
    obtain rfl := RouletteBetType.ofText_some hknown
    cases known with
    | STRAIGHT =>
      refine (assertValidSelection_numbered 0 36 (by decide) (by decide)
        (fun n => by simp [RouletteBetType.text]) value).trans ?_
      simp [OnTable, Inherited, RouletteBetType.text, objectPrototypeNames]
    | DOZEN =>
      refine (assertValidSelection_numbered 1 3 (by decide) (by decide)
        (fun n => by simp [RouletteBetType.text]) value).trans ?_
      simp [OnTable, Inherited, RouletteBetType.text, objectPrototypeNames]
    | COLUMN =>
      refine (assertValidSelection_numbered 1 3 (by decide) (by decide)
        (fun n => by simp [RouletteBetType.text]) value).trans ?_
      simp [OnTable, Inherited, RouletteBetType.text, objectPrototypeNames]
    | _ =>
      refine (assertValidSelection_plain (by decide) (by decide) value).trans ?_
      simp [OnTable, Inherited, RouletteBetType.text, objectPrototypeNames]
  · have hoff : ¬OnTable ⟨type, value⟩ := by
      intro h
      refine hown ?_
      rcases h with ⟨h, -⟩ | ⟨h, -⟩ | ⟨h, -⟩
      · simp only [List.mem_cons, List.not_mem_nil, or_false] at h
        rcases h with rfl | rfl | rfl | rfl | rfl | rfl <;> rfl
      · subst h
        rfl
      · simp only [List.mem_cons, List.not_mem_nil, or_false] at h
        rcases h with rfl | rfl <;> rfl
    by_cases hinherited : type ∈ objectPrototypeNames
    · have hplain : (type == "STRAIGHT" || type == "DOZEN" || type == "COLUMN") = false := by
        revert hinherited
        simp only [objectPrototypeNames, List.mem_cons, List.not_mem_nil, or_false]
        rintro (rfl | rfl | rfl | rfl | rfl | rfl | rfl | rfl | rfl | rfl | rfl | rfl) <;> decide
      have hknown : inRouletteOdds type = true := by
        unfold inRouletteOdds
        rw [List.contains_iff_mem.2 hinherited, Bool.or_true]
      refine (assertValidSelection_plain hknown hplain value).trans ?_
      simp [hoff, Inherited, hinherited]
    · have hunknown : inRouletteOdds type = false := by
        unfold inRouletteOdds
        simp [hown, hinherited]
      constructor
      · intro h
        unfold assertValidSelection at h
        simp [hunknown] at h
      · rintro (h | h)
        · exact absurd h hoff
        · exact absurd h.1 hinherited

/-- A selection of the table names one of the types. -/
theorem OnTable.ofText {selection : RouletteSelection} (h : OnTable selection) :
    ∃ type, RouletteBetType.ofText selection.type = some type := by
  obtain ⟨type, value⟩ := selection
  rcases h with ⟨h, -⟩ | ⟨h, -⟩ | ⟨h, -⟩
  · simp only [List.mem_cons, List.not_mem_nil, or_false] at h
    rcases h with rfl | rfl | rfl | rfl | rfl | rfl <;> exact ⟨_, rfl⟩
  · subst h
    exact ⟨_, rfl⟩
  · simp only [List.mem_cons, List.not_mem_nil, or_false] at h
    rcases h with rfl | rfl <;> exact ⟨_, rfl⟩

/-- No type of the table is inherited. -/
theorem Inherited.ofText {selection : RouletteSelection} (h : Inherited selection) :
    RouletteBetType.ofText selection.type = none := by
  obtain ⟨type, value⟩ := selection
  obtain ⟨h, -⟩ := h
  simp only [objectPrototypeNames, List.mem_cons, List.not_mem_nil, or_false] at h
  rcases h with rfl | rfl | rfl | rfl | rfl | rfl | rfl | rfl | rfl | rfl | rfl | rfl <;> rfl

/-- Every bet that wins pays more than its stake. -/
theorem basisPointsOne_lt_rouletteOddsBp (type : RouletteBetType) :
    basisPointsOne < rouletteOddsBp type := by
  cases type <;> decide

/-- A selection on the table wins or loses on every pocket. -/
theorem OnTable.answers {selection : RouletteSelection} (h : OnTable selection) :
    Answers selection := by
  obtain ⟨type, htype⟩ := h.ofText
  have hvalid := (assertValidSelection_iff selection).2 (.inl h)
  constructor
  · refine ⟨rouletteOddsBp type, ?_, basisPointsOne_lt_rouletteOddsBp type⟩
    unfold oddsForSelection
    rw [hvalid, htype]
    rfl
  · intro pocket hlow hhigh
    unfold selectionWins
    rw [hvalid, htype]
    simp only [Option.map_some]
    rw [if_neg (by omega)]
    exact ⟨_, rfl⟩

/-- The table is what the validator accepts, except that a name which every object inherits
passes for a type: it has no odds, and no pocket is won or lost on it. -/
theorem assertValidSelection_table (selection : RouletteSelection) :
    Checked selection ↔ ¬Inherited selection := by
  unfold Checked
  rw [assertValidSelection_iff]
  constructor
  · rintro ⟨hiff, -⟩ hinherited
    obtain ⟨type, htype⟩ := (hiff.1 (.inr hinherited)).ofText
    rw [hinherited.ofText] at htype
    cases htype
  · intro hown
    constructor
    · exact ⟨fun h => h.resolve_right hown, .inl⟩
    · intro h
      exact (h.resolve_right hown).answers

/-- `toString` passes for a bet type. -/
theorem assertValidSelection_toString :
    ¬Checked ⟨"toString", none⟩ ∧ assertValidSelection ⟨"toString", none⟩ = .ok () ∧
      oddsForSelection ⟨"toString", none⟩ = .ok none ∧
      selectionWins ⟨"toString", none⟩ 7 = .ok none := by
  have haccepted : assertValidSelection ⟨"toString", none⟩ = .ok () := by decide +kernel
  refine ⟨?_, haccepted, by decide +kernel, by decide +kernel⟩
  rintro ⟨-, hanswers⟩
  obtain ⟨⟨odds, hodds, -⟩, -⟩ := hanswers haccepted
  have hnone : oddsForSelection ⟨"toString", none⟩ = .ok none := by decide +kernel
  rw [hnone] at hodds
  cases hodds

/-! ## The wheel -/

/-- The pockets of the wheel. -/
def wheel : List ℤ := (List.range pocketCount).map Int.ofNat

/-- The wheel has the pockets 0 to 36. -/
theorem mem_wheel {pocket : ℤ} : pocket ∈ wheel ↔ 0 ≤ pocket ∧ pocket ≤ 36 := by
  unfold wheel pocketCount
  simp only [List.mem_map, List.mem_range]
  constructor
  · rintro ⟨n, hn, rfl⟩
    exact ⟨Int.natCast_nonneg n, by simp only [Int.ofNat_eq_natCast]; omega⟩
  · rintro ⟨hlow, hhigh⟩
    exact ⟨pocket.toNat, by omega, Int.toNat_of_nonneg hlow⟩

/-- An amount on each element that has a property. -/
theorem sum_map_ite {α : Type} (l : List α) (p : α → Prop) [DecidablePred p] (amount : ℤ) :
    (l.map fun x => if p x then amount else 0).sum = l.countP p * amount := by
  induction l with
  | nil => simp
  | cons x rest ih =>
    rw [List.map_cons, List.sum_cons, ih, List.countP_cons]
    by_cases hx : p x
    · simp only [hx, if_true, decide_true]
      push_cast
      ring
    · simp [hx]

/-- How many pockets a selection wins on. -/
def winners (selection : RouletteSelection) : ℕ :=
  wheel.countP fun pocket => selectionWins selection pocket = .ok (some true)

/-- How many times its stake a winning bet of a type is worth. -/
def RouletteBetType.pays : RouletteBetType → ℤ
  | .STRAIGHT => 36
  | .RED | .BLACK | .ODD | .EVEN | .LOW | .HIGH => 2
  | .DOZEN | .COLUMN => 3

/-- The odds are whole multiples of the stake. -/
theorem rouletteOddsBp_eq (type : RouletteBetType) :
    rouletteOddsBp type = type.pays * basisPointsOne := by
  cases type <;> rfl

/-- The bets at even money win on 18 pockets. -/
theorem winners_plain : ∀ type ∈ ["RED", "BLACK", "ODD", "EVEN", "LOW", "HIGH"],
    winners ⟨type, none⟩ = 18 := by
  decide +kernel

/-- A straight-up bet wins on one pocket. -/
theorem winners_straight : ∀ n ∈ List.range 37,
    winners ⟨"STRAIGHT", some (.integer n)⟩ = 1 := by
  decide +kernel

/-- A dozen and a column win on twelve pockets. -/
theorem winners_third : ∀ type ∈ ["DOZEN", "COLUMN"], ∀ n ∈ [1, 2, 3],
    winners ⟨type, some (.integer n)⟩ = 12 := by
  decide +kernel

/-- Whatever its type, a selection pays for 36 pockets: it wins on as many as its odds divide. -/
theorem OnTable.winners_pays {selection : RouletteSelection} (h : OnTable selection)
    {type : RouletteBetType} (htype : RouletteBetType.ofText selection.type = some type) :
    (winners selection : ℤ) * type.pays = 36 := by
  obtain ⟨text, value⟩ := selection
  rcases h with ⟨h, hvalue⟩ | ⟨h, n, hvalue, hlow, hhigh⟩ | ⟨h, n, hvalue, hlow, hhigh⟩
  · dsimp only at hvalue h
    subst hvalue
    rw [winners_plain text h]
    simp only [List.mem_cons, List.not_mem_nil, or_false] at h
    rcases h with rfl | rfl | rfl | rfl | rfl | rfl <;> (cases htype; rfl)
  · dsimp only at hvalue h
    subst hvalue h
    have hcount := winners_straight n.toNat (List.mem_range.2 (by omega))
    rw [Int.toNat_of_nonneg hlow] at hcount
    rw [hcount]
    cases htype
    rfl
  · dsimp only at hvalue h
    subst hvalue
    rw [winners_third text h n (by simp; omega)]
    simp only [List.mem_cons, List.not_mem_nil, or_false] at h
    rcases h with rfl | rfl <;> (cases htype; rfl)

/-! ## Settling over the wheel -/

/-- What is posted for a roulette bet on a pocket.  Source: the postings of `settleRouletteBet`,
and those of `settleLostBet`. -/
def Bet.postingsOn (b : Bet) (walletId : Uuid) (pocket : ℤ) : Except AppError (List Posting) :=
  match b.winsAt pocket with
  | .error e => .error e
  | .ok none => .ok [⟨escrowId, b.stakeMinor.negate⟩, ⟨houseId, b.stakeMinor⟩]
  | .ok (some oddsBp) => do
    let multiplier ← basisPointsFromRaw oddsBp
    let payout ← b.stakeMinor.applyMultiplier multiplier
    let profit ← Money.sub payout b.stakeMinor
    .ok (winPostings walletId b.stakeMinor profit)

/-- A lost stake goes to the house. -/
theorem Bet.postingsOn_lost {b : Bet} {walletId : Uuid} {pocket : ℤ}
    (hlost : b.winsAt pocket = .ok none) :
    b.postingsOn walletId pocket =
      .ok [⟨escrowId, b.stakeMinor.negate⟩, ⟨houseId, b.stakeMinor⟩] := by
  unfold Bet.postingsOn
  rw [hlost]

/-- A won bet gets its payout, the profit from the house. -/
theorem Bet.postingsOn_won {b : Bet} {walletId : Uuid} {pocket oddsBp multiplier : ℤ}
    {payout profit : Money} (hwon : b.winsAt pocket = .ok (some oddsBp))
    (hmultiplier : basisPointsFromRaw oddsBp = .ok multiplier)
    (hpayout : b.stakeMinor.applyMultiplier multiplier = .ok payout)
    (hprofit : payout.sub b.stakeMinor = .ok profit) :
    b.postingsOn walletId pocket = .ok (winPostings walletId b.stakeMinor profit) := by
  unfold Bet.postingsOn
  rw [hwon]
  show (basisPointsFromRaw oddsBp).bind _ = _
  rw [hmultiplier]
  show (b.stakeMinor.applyMultiplier multiplier).bind _ = _
  rw [hpayout]
  show (payout.sub b.stakeMinor).bind _ = _
  rw [hprofit]
  rfl

/-! ### The service posts these -/

/-- The account and the amount of a row of the journal. -/
def Write.leg : Write → List (Uuid × ℤ)
  | .insertEntry e => [(e.accountId, e.amount)]
  | _ => []

/-- The accounts and the amounts of some postings. -/
def postingLegs (postings : List Posting) : List (Uuid × ℤ) :=
  postings.map fun p => (p.accountId, p.amount.minor)

/-- The monitor that notes down what is entered in the journal. -/
abbrev journal : Monitor LockKey Write (List (Uuid × ℤ)) := writeMonitor Write.leg

section
variable {α β : Type} {C : AppError → Prop} {made : List (Uuid × ℤ)}

/-- A part that enters nothing in the journal. -/
abbrev Unposted (p : Action α) : Prop := p.Within (fun w => w.leg = []) fun w => w.isDraw = true

/-- A part that does not write the ledger posts nothing. -/
theorem Touches.unposted {tables : List Table} {p : Action α} (h : Touches tables p)
    (hledger : Table.ledger ∉ tables) : Unposted p := by
  refine Within.mono (fun w hw => ?_) h
  cases w with
  | insertEntry e => exact absurd hw hledger
  | _ => rfl

/-- What has been posted stays as it is. -/
theorem Unposted.passes {p : Action α} (h : Unposted p) :
    p.Passes journal C made fun _ made' => made' = made :=
  Passes.of_within (fun _ _ _ => ⟨trivial, rfl⟩)
    (fun noted row hrow => ⟨trivial, by
      change noted ++ row.leg = noted
      rw [hrow, List.append_nil]⟩)
    (fun _ _ _ => ⟨trivial, rfl⟩) h

/-- A part that enters nothing in the journal, and what comes after it. -/
theorem Unposted.bind {p : Action α} {k : α → Action β}
    {K : Except AppError β → List (Uuid × ℤ) → Prop} (hp : Unposted p)
    (hk : ∀ a, (k a).Passes journal C made K) (herror : ∀ e, K (.error e) made) :
    (p >>= k).Passes journal C made K := by
  refine Passes.bind (hp.passes.mono fun r made' h => ?_)
  subst h
  cases r with
  | ok a => exact hk a
  | error e => exact herror e

/-- If it ends with a value, it has entered these postings and no others. -/
def Posts (postings : List Posting) (made : List (Uuid × ℤ)) (r : Except AppError α)
    (made' : List (Uuid × ℤ)) : Prop :=
  r.toOption.isSome = true → made' = made ++ postingLegs postings

/-- After an error nothing need have been posted. -/
theorem Posts.error {postings : List Posting} {e : AppError} {made' : List (Uuid × ℤ)} :
    Posts (α := α) postings made (.error e) made' :=
  fun h => by cases h

/-- One entry is one leg of the journal. -/
theorem insertEntryRow_posts {transactionId : Uuid} {p : Posting} {createdAt : Time} :
    (insertEntryRow transactionId p.accountId p.amount createdAt).Passes journal C made
      (Posts [p] made) := by
  refine Unposted.bind (Within.draw rfl) (fun id => ?_) fun _ => .error
  exact Unposted.bind Within.ensure (fun _ => ⟨trivial, fun _ => rfl⟩) fun _ => .error

/-- The entries of a posting are its legs, in their order. -/
theorem insertEntries_posts {transactionId : Uuid} {postings : List Posting} :
    (insertEntries transactionId postings).Passes journal C made (Posts postings made) := by
  refine Unposted.bind Within.read (fun x => Passes.bind (Passes.forEach
    (fun before noted => noted = made ++ postingLegs before) [] (by simp [postingLegs]) ?_ ?_))
    fun _ => .error
  · rintro before p rest - noted rfl
    refine Passes.mono (fun r noted' h => ?_) insertEntryRow_posts
    cases r with
    | ok u =>
      rw [h rfl]
      simp [postingLegs]
    | error e => exact .error
  · rintro noted rfl
    have hreferences : Unposted (forEach (fun p : Posting => assertReference
        (fun s => (s.account p.accountId).isSome) "entries_account_id_fkey") postings) :=
      Within.forEach fun p _ => Within.bind Within.select fun _ => Within.ensure
    exact Passes.mono (fun r noted hnoted => show Posts postings made r noted from fun _ => hnoted)
      hreferences.passes

/-- A balance that moves is no entry. -/
theorem updateBalance_unposted {posting : Posting} : Unposted (updateBalance posting) := by
  refine Within.bind Within.selectForLock fun found => ?_
  cases found with
  | none => trivial
  | some row =>
    exact Within.bind Within.ensure fun _ => Within.bind Within.check fun _ => Within.put rfl

/-- A posting that succeeds has entered its legs. -/
theorem postEnlisted_posts {input : PostInput} :
    (postEnlisted input).Passes journal C made (Posts input.postings made) := by
  refine Unposted.bind Within.check (fun _ => Unposted.bind Within.read (fun x => Unposted.bind ?_
    (fun _ => Passes.bind (Passes.mono (fun r made' h => ?_) insertEntries_posts)) fun _ => .error)
    fun _ => .error) fun _ => .error
  · exact Within.bind (Within.bind Within.acquire fun _ => Within.ensure) fun _ => Within.put rfl
  · cases r with
    | error e => exact .error
    | ok u =>
      have hbalances : Unposted (forEach updateBalance (ordered input.postings)) :=
        Within.forEach fun p _ => updateBalance_unposted
      exact Unposted.bind hbalances (fun _ _ => h rfl) fun _ => .error

/-- The wallet that is found is that of some state. -/
theorem getWalletAccountId_reads {userId : Uuid} :
    (getWalletAccountId userId).Passes journal C made fun r made' => made' = made ∧
      ∀ walletId, r = .ok walletId → ∃ v : Db, v.walletOf userId = some walletId := by
  refine Passes.bind fun v => ?_
  beta_reduce
  cases haccount : v.accountByKey (walletKey userId) with
  | none => exact ⟨rfl, fun w hw => by cases hw⟩
  | some account =>
    refine ⟨rfl, fun w hw => ⟨v, ?_⟩⟩
    cases hw
    unfold Db.walletOf
    rw [haccount]
    rfl

/-- A settlement has entered what the bet comes to on the pocket. -/
def Enters (b : Bet) (pocket : ℤ) (made : List (Uuid × ℤ)) (r : Except AppError Unit)
    (made' : List (Uuid × ℤ)) : Prop :=
  r.toOption.isSome = true → ∃ (v : Db) (walletId : Uuid) (postings : List Posting),
    v.walletOf b.userId = some walletId ∧ b.postingsOn walletId pocket = .ok postings ∧
      made' = made ++ postingLegs postings

/-- Notifications are no entries. -/
theorem publishBetOutcome_unposted {betId userId walletId : Uuid} :
    Unposted (publishBetOutcome betId userId walletId) :=
  publishBetOutcome_touches.unposted (by simp)

/-- `settleLostBet` enters the legs of a lost bet. -/
theorem settleLostBet_posts {b : Bet} {pocket : ℤ} (hlost : b.winsAt pocket = .ok none) :
    (settleLostBet b).Passes journal C made (Enters b pocket made) := by
  have herror : ∀ e made', Enters b pocket made (.error e) made' := fun e made' h => by cases h
  refine Unposted.bind Within.read (fun x => Unposted.bind (updateActiveBet_touches.unposted (by simp))
    (fun _ => Passes.bind (Passes.mono (fun r made' h => ?_) postEnlisted_posts))
    fun _ => herror _ _) fun _ => herror _ _
  cases r with
  | error e => exact herror _ _
  | ok posted =>
    have hmade := h rfl
    refine Passes.bind (Passes.mono (fun r made'' hread => ?_) getWalletAccountId_reads)
    obtain ⟨rfl, hread⟩ := hread
    cases r with
    | error e => exact herror _ _
    | ok walletId =>
      obtain ⟨v, hv⟩ := hread walletId rfl
      refine Passes.mono (fun r noted hnoted _ => ?_) publishBetOutcome_unposted.passes
      exact ⟨v, walletId, _, hv, Bet.postingsOn_lost hlost, hnoted.trans hmade⟩

/-- `settleWonBet` enters the legs of a won bet. -/
theorem settleWonBet_posts {b : Bet} {pocket oddsBp : ℤ}
    (hwon : b.winsAt pocket = .ok (some oddsBp)) :
    (settleWonBet b oddsBp).Passes journal C made (Enters b pocket made) := by
  have herror : ∀ e made', Enters b pocket made (.error e) made' := fun e made' h => by cases h
  refine Passes.bind ?_
  cases hmultiplier : basisPointsFromRaw oddsBp with
  | error e => exact herror _ _
  | ok multiplier =>
  refine Passes.bind ?_
  cases hpayout : b.stakeMinor.applyMultiplier multiplier with
  | error e => exact herror _ _
  | ok payout =>
  refine Passes.bind ?_
  cases hprofit : Money.sub payout b.stakeMinor with
  | error e => exact herror _ _
  | ok profit =>
  refine Unposted.bind Within.read (fun x => Unposted.bind (updateActiveBet_touches.unposted (by simp))
    (fun _ => Passes.bind (Passes.mono (fun r made' hread => ?_) getWalletAccountId_reads))
    fun _ => herror _ _) fun _ => herror _ _
  obtain ⟨rfl, hread⟩ := hread
  cases r with
  | error e => exact herror _ _
  | ok walletId =>
    obtain ⟨v, hv⟩ := hread walletId rfl
    refine Passes.bind (Passes.mono (fun r noted hposts => ?_) postEnlisted_posts)
    cases r with
    | error e => exact herror _ _
    | ok posted =>
      have hpostings : b.postingsOn walletId pocket = _ :=
        Bet.postingsOn_won hwon hmultiplier hpayout hprofit
      have hrest : Unposted (do
          let displayName ← select (displayNameOf b.userId)
          let roundId ← select fun s => (s.bet b.id).map Bet.roundId
          publish (.betWon roundId .ROULETTE b.id displayName b.stakeMinor.minor
            (some b.selection) oddsBp payout.minor)
          publishBetOutcome b.id b.userId walletId) :=
        Within.bind Within.select fun _ => Within.bind Within.select fun _ =>
          Within.bind (publish_touches.unposted (by simp)) fun _ => publishBetOutcome_unposted
      exact Passes.mono (fun r noted hnoted => show Enters b pocket made' r noted from
        fun _ => ⟨v, walletId, _, hv, hpostings, hnoted.trans (hposts rfl)⟩) hrest.passes

/-- Whatever it reads on the way, `settleRouletteBet` enters the postings of the bet on the pocket,
for the wallet that it has found for the user, and no others. -/
theorem settleRouletteBet_posts {b : Bet} {pocket : ℤ} :
    (settleRouletteBet b pocket).Passes journal C made (Enters b pocket made) := by
  unfold settleRouletteBet
  cases hwins : b.winsAt pocket with
  | error e => exact fun h => by cases h
  | ok won =>
    cases won with
    | none => exact settleLostBet_posts hwins
    | some oddsBp => exact settleWonBet_posts hwins

/-- In every run that settles a roulette bet, the journal rows that are to be committed are the
postings of the bet on the pocket, and what was there before. -/
theorem settleRouletteBet_journal {R : Discipline Db LockKey Write} {T : Terms Db LockKey Write}
    {b : Bet} {pocket : ℤ} {f : Standing Db LockKey Write} {s : Db}
    {Q : Post Db LockKey Write AppError Unit}
    (h : wp database R T (settleRouletteBet b pocket) f s Q) :
    wp database R T (settleRouletteBet b pocket) f s fun r f' s' => Q r f' s' ∧
      Enters b pocket (f.pending.flatMap Write.leg) r (f'.pending.flatMap Write.leg) :=
  wp_writes h settleRouletteBet_posts

end

/-- What settling a roulette bet on a pocket moves into an account. -/
def Bet.movesOn (b : Bet) (walletId : Uuid) (pocket : ℤ) (id : Uuid) : ℤ :=
  match b.postingsOn walletId pocket with
  | .ok postings => net postings id
  | .error _ => 0

/-- A roulette bet that has been accepted: priced on its selection and let in by the constraints
of its row, on a stake whose 36-fold is a safe integer. -/
structure Bet.Accepted (b : Bet) : Prop where
  priced : ∃ selection priced, priceSelection .ROULETTE selection = .ok priced ∧
    b.selectionType = priced.selectionType ∧ b.selectionValue = priced.selectionValue ∧
    b.oddsBp = priced.oddsBp
  checked : b.violated = none
  small : b.stakeMinor.minor * 36 ≤ Js.maxSafeInteger

section
variable {b : Bet} {type : RouletteBetType} {walletId : Uuid} {pocket : ℤ}

/-- What is stored with an accepted bet. -/
theorem Bet.Accepted.backs (h : b.Accepted) : ∃ type, b.Backs type := by
  obtain ⟨selection, priced, hpriced, htype, hvalue, hodds⟩ := h.priced
  exact priceSelection_priced hpriced htype hvalue hodds (Bet.paired h.checked)

/-- The CHECK constraint asks for a positive stake. -/
theorem Bet.stake_pos (h : b.violated = none) : 0 < b.stakeMinor.minor := by
  have hall := firstViolated_none h
  simp only [List.forall_mem_cons] at hall
  obtain ⟨-, -, -, -, -, -, hstake, -⟩ := hall
  simpa using hstake

/-- The selection that is read back is one of the table. -/
theorem Bet.Backs.onTable (h : b.Backs type) : OnTable b.selection ∧
    RouletteBetType.ofText b.selection.type = some type := by
  have htype : b.selection.type = type.text := by
    unfold Bet.selection
    rw [h.text]
    rfl
  have hof : RouletteBetType.ofText b.selection.type = some type := by
    rw [htype]
    exact RouletteBetType.ofText_text type
  refine ⟨((assertValidSelection_iff _).1 h.valid).resolve_right fun hinherited => ?_, hof⟩
  rw [hinherited.ofText] at hof
  cases hof

/-- Bets pay from 2 to 36 times the stake. -/
theorem RouletteBetType.pays_mem (type : RouletteBetType) : 1 < type.pays ∧ type.pays ≤ 36 := by
  cases type <;> decide

/-- A winning stake is multiplied without a remainder. -/
theorem applyMultiplier_odds {stake : Money} (type : RouletteBetType) (hstake : 0 < stake.minor)
    (hsmall : stake.minor * 36 ≤ Js.maxSafeInteger) :
    ∃ payout, stake.applyMultiplier (rouletteOddsBp type) = .ok payout ∧
      payout.minor = stake.minor * type.pays := by
  obtain ⟨hpays, hmost⟩ := type.pays_mem
  have hdiv : stake.minor * rouletteOddsBp type / basisPointsOne = stake.minor * type.pays := by
    rw [rouletteOddsBp_eq, ← mul_assoc]
    exact Int.mul_ediv_cancel _ (by decide)
  have hle : stake.minor * type.pays ≤ stake.minor * 36 :=
    mul_le_mul_of_nonneg_left hmost hstake.le
  have hpos : 0 ≤ stake.minor * type.pays := by positivity
  have hsafe : Js.isSafeInteger (stake.minor * rouletteOddsBp type / basisPointsOne) = true := by
    rw [hdiv, Js.isSafeInteger_iff]
    unfold Js.maxSafeInteger at *
    omega
  have hodds : 0 ≤ rouletteOddsBp type := by
    rw [rouletteOddsBp_eq]
    unfold basisPointsOne
    omega
  unfold Money.applyMultiplier applyBasisPoints
  rw [if_neg (not_lt.2 hstake.le), if_neg (not_lt.2 hodds), dif_pos hsafe]
  exact ⟨_, rfl, hdiv⟩

/-- The profit of a win is an amount. -/
theorem Money.sub_win {payout stake : Money} (hstake : 0 < stake.minor)
    (hle : stake.minor ≤ payout.minor) :
    ∃ profit, Money.sub payout stake = .ok profit ∧ profit.minor = payout.minor - stake.minor := by
  have hsafe : Js.isSafeInteger (payout.minor - stake.minor) = true := by
    have hpayout := Js.isSafeInteger_iff.1 payout.safe
    rw [Js.isSafeInteger_iff]
    unfold Js.maxSafeInteger at *
    omega
  unfold Money.sub
  rw [dif_pos hsafe]
  exact ⟨_, rfl, rfl⟩

/-- The odds are accepted as a factor. -/
theorem basisPointsFromRaw_odds (type : RouletteBetType) :
    basisPointsFromRaw (rouletteOddsBp type) = .ok (rouletteOddsBp type) := by
  cases type <;> decide

/-- A bet that loses moves its stake from escrow to the house. -/
theorem Bet.Backs.movesOn_lost (hb : b.Backs type)
    (hwins : Tessera.selectionWins b.selection pocket = .ok (some false))
    (hwallet : walletId ≠ escrowId ∧ walletId ≠ houseId) :
    (∃ postings, b.postingsOn walletId pocket = .ok postings) ∧
      b.movesOn walletId pocket walletId = 0 ∧
      b.movesOn walletId pocket houseId = b.stakeMinor.minor := by
  have hsystem : houseId ≠ escrowId := by decide
  have hpostings : b.postingsOn walletId pocket = _ := Bet.postingsOn_lost (hb.winsAt hwins)
  unfold Bet.movesOn
  rw [hpostings]
  refine ⟨⟨_, rfl⟩, ?_, ?_⟩
  · simp [net_cons, net_nil, Ne.symm hwallet.1, Ne.symm hwallet.2]
  · simp [net_cons, net_nil, Ne.symm hsystem]

/-- A bet that wins is paid back with a profit. -/
theorem Bet.Backs.movesOn_won (hb : b.Backs type) (hstake : 0 < b.stakeMinor.minor)
    (hwins : Tessera.selectionWins b.selection pocket = .ok (some true)) {payout : Money}
    (hpayout : b.stakeMinor.applyMultiplier (rouletteOddsBp type) = .ok payout)
    (hwallet : walletId ≠ escrowId ∧ walletId ≠ houseId) :
    (∃ postings, b.postingsOn walletId pocket = .ok postings) ∧
      b.movesOn walletId pocket walletId = payout.minor ∧
      b.movesOn walletId pocket houseId = b.stakeMinor.minor - payout.minor := by
  have hsystem : houseId ≠ escrowId := by decide
  have hle := le_applyMultiplier (rouletteOddsBp_ge type).1 hpayout
  obtain ⟨profit, hprofit, hdiff⟩ := Money.sub_win hstake hle
  have hpostings : b.postingsOn walletId pocket = _ := Bet.postingsOn_won (hb.winsAt hwins)
    (basisPointsFromRaw_odds type) hpayout hprofit
  unfold Bet.movesOn
  rw [hpostings]
  refine ⟨⟨_, rfl⟩, (net_win hdiff hle walletId).trans ?_, (net_win hdiff hle houseId).trans ?_⟩
  · rw [if_pos rfl, if_neg hwallet.1, if_neg hwallet.2]
    omega
  · rw [if_neg (Ne.symm hwallet.2), if_neg hsystem, if_pos rfl]
    omega

/-- What an accepted bet is paid on a pocket. -/
def Bet.wonOn (b : Bet) (type : RouletteBetType) (pocket : ℤ) : ℤ :=
  if selectionWins b.selection pocket = .ok (some true) then b.stakeMinor.minor * type.pays else 0

/-- An accepted bet is settled on every pocket: its owner is paid what it won, and the house
makes the rest of the stake. -/
theorem Bet.Accepted.movesOn (h : b.Accepted) (hb : b.Backs type) (hpocket : pocket ∈ wheel)
    (hwallet : walletId ≠ escrowId ∧ walletId ≠ houseId) :
    (∃ postings, b.postingsOn walletId pocket = .ok postings) ∧
      b.movesOn walletId pocket walletId = b.wonOn type pocket ∧
      b.movesOn walletId pocket houseId = b.stakeMinor.minor - b.wonOn type pocket := by
  obtain ⟨wins, hwins⟩ := hb.selectionWins (mem_wheel.1 hpocket)
  unfold Bet.wonOn
  cases wins with
  | false =>
    rw [hwins, if_neg (by simp), sub_zero]
    exact hb.movesOn_lost hwins hwallet
  | true =>
    have hstake := Bet.stake_pos h.checked
    obtain ⟨payout, hpayout, hminor⟩ := applyMultiplier_odds type hstake h.small
    rw [hwins, if_pos rfl, ← hminor]
    exact hb.movesOn_won hstake hwins hpayout hwallet

/-- What one bet pays over the wheel, and what the house makes on it. -/
theorem Bet.Accepted.wheel_sum (h : b.Accepted)
    (hwallet : walletId ≠ escrowId ∧ walletId ≠ houseId) :
    (wheel.map fun pocket => b.movesOn walletId pocket walletId).sum = 36 * b.stakeMinor.minor ∧
      (wheel.map fun pocket => b.movesOn walletId pocket houseId).sum = b.stakeMinor.minor := by
  obtain ⟨type, hb⟩ := h.backs
  obtain ⟨honTable, htype⟩ := hb.onTable
  have hwon : (wheel.map fun pocket => b.wonOn type pocket).sum = 36 * b.stakeMinor.minor := by
    unfold Bet.wonOn
    rw [sum_map_ite, ← honTable.winners_pays htype]
    unfold winners
    ring
  have hstakes : (wheel.map fun _ => b.stakeMinor.minor).sum = 37 * b.stakeMinor.minor := by
    rw [List.map_const', List.sum_replicate]
    simp [wheel, pocketCount]
  constructor
  · rw [← hwon]
    exact congrArg List.sum (List.map_congr_left fun pocket hpocket =>
      (h.movesOn hb hpocket hwallet).2.1)
  · have htotal : (wheel.map fun pocket =>
        b.movesOn walletId pocket houseId + b.wonOn type pocket).sum =
          (wheel.map fun _ => b.stakeMinor.minor).sum := by
      refine congrArg List.sum (List.map_congr_left fun pocket hpocket => ?_)
      rw [(h.movesOn hb hpocket hwallet).2.2]
      omega
    rw [List.sum_map_add, hstakes, hwon] at htotal
    omega

end

/-- Whatever accepted bets are on the table, each is settled on every pocket, and over the 37
pockets they are paid 36 times what was staked, which leaves the house with the stakes once. -/
theorem wheel_settles (bets : List Bet) (walletOf : Bet → Uuid) (haccepted : ∀ b ∈ bets, b.Accepted)
    (hwallet : ∀ b ∈ bets, walletOf b ≠ escrowId ∧ walletOf b ≠ houseId) :
    (∀ b ∈ bets, ∀ pocket ∈ wheel, ∃ postings, b.postingsOn (walletOf b) pocket = .ok postings) ∧
      (wheel.map fun pocket =>
        (bets.map fun b => b.movesOn (walletOf b) pocket (walletOf b)).sum).sum =
          36 * (bets.map fun b => b.stakeMinor.minor).sum ∧
      (wheel.map fun pocket => (bets.map fun b => b.movesOn (walletOf b) pocket houseId).sum).sum =
        (bets.map fun b => b.stakeMinor.minor).sum := by
  refine ⟨fun b hb pocket hpocket => ?_, ?_⟩
  · obtain ⟨type, hbacks⟩ := (haccepted b hb).backs
    exact ((haccepted b hb).movesOn hbacks hpocket (hwallet b hb)).1
  · induction bets with
    | nil => simp
    | cons b rest ih =>
      obtain ⟨hb, hrest⟩ := List.forall_mem_cons.1 haccepted
      obtain ⟨hw, hwrest⟩ := List.forall_mem_cons.1 hwallet
      obtain ⟨hpaid, hmade⟩ := hb.wheel_sum hw
      obtain ⟨hpaids, hmades⟩ := ih hrest hwrest
      simp only [List.map_cons, List.sum_cons, List.sum_map_add]
      rw [hpaid, hmade, hpaids, hmades]
      constructor
      · ring
      · rfl

/-- A bet on what has been priced. -/
def tableBet (stake : Money) (priced : PricedSelection) : Bet where
  id := 60
  userId := 20
  roundId := 40
  stakeMinor := stake
  status := .ACTIVE
  settledMultiplierBp := none
  payoutMinor := none
  idempotencyKey := "table-bet"
  createdAt := 0
  settledAt := none
  selectionType := priced.selectionType
  selectionValue := priced.selectionValue
  oddsBp := priced.oddsBp

/-- A bet on what a selection is priced at has been accepted, if its row is. -/
theorem tableBet_accepted {stake : Money} {selection : Option RouletteSelection}
    {priced : PricedSelection} (hpriced : priceSelection .ROULETTE selection = .ok priced)
    (hchecked : (tableBet stake priced).violated = none)
    (hsmall : stake.minor * 36 ≤ Js.maxSafeInteger) : (tableBet stake priced).Accepted :=
  ⟨⟨selection, priced, hpriced, rfl, rfl, rfl⟩, hchecked, hsmall⟩

/-- A number, a column, and a colour twice. -/
def mixedBets : List Bet :=
  [tableBet ⟨250, by decide⟩ ⟨some "STRAIGHT", some "17", some 360000⟩,
    tableBet ⟨75, by decide⟩ ⟨some "COLUMN", some "2", some 30000⟩,
    tableBet ⟨100, by decide⟩ ⟨some "RED", none, some 20000⟩,
    tableBet ⟨100, by decide⟩ ⟨some "RED", none, some 20000⟩]

theorem wheel_settles_mixedBets :
    (mixedBets.map fun b => b.stakeMinor.minor).sum = 525 ∧
      (wheel.map fun pocket => (mixedBets.map fun b => b.movesOn 5 pocket 5).sum).sum =
        36 * (mixedBets.map fun b => b.stakeMinor.minor).sum ∧
      (wheel.map fun pocket => (mixedBets.map fun b => b.movesOn 5 pocket houseId).sum).sum =
        (mixedBets.map fun b => b.stakeMinor.minor).sum := by
  have haccepted : ∀ b ∈ mixedBets, b.Accepted := by
    have hstraight : priceSelection .ROULETTE (some ⟨"STRAIGHT", some (.integer 17)⟩) =
        .ok ⟨some "STRAIGHT", some "17", some 360000⟩ := by decide +kernel
    have hcolumn : priceSelection .ROULETTE (some ⟨"COLUMN", some (.integer 2)⟩) =
        .ok ⟨some "COLUMN", some "2", some 30000⟩ := by decide +kernel
    have hred : priceSelection .ROULETTE (some ⟨"RED", none⟩) =
        .ok ⟨some "RED", none, some 20000⟩ := by decide +kernel
    unfold mixedBets
    simp only [List.forall_mem_cons]
    exact ⟨tableBet_accepted hstraight (by decide) (by decide),
      tableBet_accepted hcolumn (by decide) (by decide),
      tableBet_accepted hred (by decide) (by decide),
      tableBet_accepted hred (by decide) (by decide), List.forall_mem_nil _⟩
  exact ⟨by decide, (wheel_settles mixedBets (fun _ => 5) haccepted
    fun _ _ => ⟨by decide, by decide⟩).2⟩

/-! ## What the books record -/

/-- A roulette bet that is won or lost has been settled by these postings: what is recorded as
paid out went to its owner, and what the house has made on it went to the house. -/
theorem Bet.PaidOut.movesOn {b : Bet} {r : Round} {walletId : Uuid} (h : b.PaidOut r)
    (hgame : r.game = .ROULETTE) (hsettled : b.status = .WON ∨ b.status = .LOST)
    (hstake : 0 < b.stakeMinor.minor) (hwallet : walletId ≠ escrowId ∧ walletId ≠ houseId) :
    ∃ pocket, r.winningPocket = some pocket ∧ b.movesOn walletId pocket walletId = b.paid ∧
      b.movesOn walletId pocket houseId = b.kept := by
  have hpriced := h.priced
  rw [hgame] at hpriced
  obtain ⟨type, hb⟩ := hpriced
  rcases hsettled with hwon | hlost
  · obtain ⟨odds, pocket, payout, hodds, -, hpocket, hpayout, hminor, hwins⟩ :=
      h.wonRoulette hwon hgame
    obtain rfl : rouletteOddsBp type = odds := Option.some.inj (hb.odds.symm.trans hodds)
    have hamount : b.stakeMinor.applyMultiplier (rouletteOddsBp type) = .ok payout := by
      have hge := (rouletteOddsBp_ge type).1
      have hsafe := payout.safe
      unfold Money.applyMultiplier applyBasisPoints
      rw [hminor] at hsafe
      rw [if_neg (not_lt.2 hstake.le), if_neg (by unfold basisPointsOne at hge; omega),
        dif_pos hsafe]
      exact congrArg Except.ok (Money.ext hminor.symm)
    obtain ⟨-, hpaid, hkept⟩ := hb.movesOn_won hstake hwins hamount hwallet
    refine ⟨pocket, hpocket, ?_, ?_⟩
    · simp [hpaid, Bet.paid, hpayout]
    · simp [hkept, Bet.kept, Bet.paid, hpayout, hwon]
  · obtain ⟨hpayout, -, hloses⟩ := h.lost hlost
    obtain ⟨pocket, hpocket, hwins⟩ := hloses hgame
    obtain ⟨-, hpaid, hkept⟩ := hb.movesOn_lost hwins hwallet
    refine ⟨pocket, hpocket, ?_, ?_⟩
    · simp [hpaid, Bet.paid, hpayout]
    · simp [hkept, Bet.kept, Bet.paid, hpayout, hlost]

end Tessera
