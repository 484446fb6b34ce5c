import Tessera.Books.Terms
import Tessera.Rounds.Placing

/-!
# Placing a bet keeps the terms

* `Benign` — the errors that are not about funds;
* `placeBet_verified` — `placeBet` keeps the discipline of the books and its own terms.
-/

namespace Tessera

open Relational Transactions Transactions.Program

/-! ## Errors that are not about funds -/

/-- Neither a lack of funds nor the trigger on negative balances. -/
def Benign (e : AppError) : Prop :=
  (∀ a kind n, e ≠ .negativeBalance a kind n) ∧ ∀ a n, e ≠ .insufficientFunds a n

/-- An error of the selection is not about funds. -/
theorem priceSelection_benign {game : GameKind} {selection : Option RouletteSelection}
    {e : AppError} (h : priceSelection game selection = .error e) : Benign e := by
  cases game with
  | CRASH =>
    cases selection with
    | none => cases h
    | some selection => cases h; exact ⟨by simp, by simp⟩
  | ROULETTE =>
    cases selection with
    | none => cases h; exact ⟨by simp, by simp⟩
    | some selection =>
      unfold priceSelection oddsForSelection at h
      cases hvalid : assertValidSelection selection with
      | error e' =>
        simp only [hvalid] at h
        cases h
        exact ⟨by simp, by simp⟩
      | ok u =>
        simp only [hvalid] at h
        cases h

/-- An error of the odds is not about funds. -/
theorem basisPointsFromRaw_benign {basisPoints : ℤ} {e : AppError}
    (h : basisPointsFromRaw basisPoints = .error e) : Benign e := by
  unfold basisPointsFromRaw at h
  split at h <;> cases h
  exact ⟨by simp, by simp⟩

/-- An error of a subtraction of amounts is not about funds. -/
theorem Money.sub_benign {a b : Money} {e : AppError} (h : a.sub b = .error e) : Benign e := by
  unfold Money.sub at h
  split at h <;> cases h
  exact ⟨by simp, by simp⟩

/-- An error of a payout is not about funds. -/
theorem applyMultiplier_benign {amount : Money} {multiplier : ℤ} {e : AppError}
    (h : amount.applyMultiplier multiplier = .error e) : Benign e := by
  unfold Money.applyMultiplier at h
  split at h <;> cases h
  exact ⟨by simp, by simp⟩

/-- An error of the sum of the postings is not about funds. -/
theorem assertBalanced_benign {input : PostInput} {e : AppError}
    (h : assertBalanced input = .error e) : Benign e := by
  unfold assertBalanced at h
  simp only at h
  split at h
  · cases h; exact ⟨by simp, by simp⟩
  · split at h
    · cases h; exact ⟨by simp, by simp⟩
    · split at h
      · cases h; exact ⟨by simp, by simp⟩
      · cases h

/-- A constraint that rejects a bet is not about funds. -/
theorem InsertBetFails.benign {b : Bet} {v : Db} {e : AppError} (h : InsertBetFails b v e) :
    Benign e := by
  cases h <;> exact ⟨by simp, by simp⟩

/-- A posting that overdraws no protected account fails for a benign reason. -/
theorem PostFails.benign {postings : List Posting} {t : Uuid} {v : Db} {e : AppError}
    (h : PostFails postings t v e)
    (hfunds : ∀ before p after, ordered postings = before ++ p :: after → ∀ a,
      v.account p.accountId = some a → a.kind.neverNegative = true →
      0 ≤ v.balanceOf p.accountId + net before p.accountId + p.amount.minor) : Benign e := by
  cases h with
  | negative hsplit ha hkind hneg => exact absurd (hfunds _ _ _ hsplit _ ha hkind) (not_le.2 hneg)
  | _ => exact ⟨by simp, by simp⟩

/-- The deferred checks at the commit are not about funds. -/
theorem deferred_benign {s : Db} {rows : List Write} {e : AppError}
    (h : s.deferred rows = .error e) : Benign e := by
  induction rows with
  | nil => cases h
  | cons w rows ih =>
    cases w with
    | insertEntry entry =>
      simp only [Db.deferred, Db.assertTransactionBalanced] at h
      split at h
      · exact ih h
      · rename_i hcheck
        cases h
        split at hcheck
        · cases hcheck; exact ⟨by simp, by simp⟩
        · split at hcheck
          · cases hcheck; exact ⟨by simp, by simp⟩
          · cases hcheck
    | _ => exact ih h

/-- None of the reasons is about funds: the trigger finds the wallet covered. -/
theorem PlaceBetFails.benign {config : Config} {A : Statement LockKey → Db → Prop}
    {input : PlaceBetInput} {stake : Money} {v : Db} {e : AppError}
    (h : PlaceBetFails A input stake v e) (hv : Consistent config v) (hpos : 0 < stake.minor) :
    Benign e := by
  cases h with
  | selection _ hprice => exact priceSelection_benign hprice
  | insert _ _ hfails _ => exact hfails.benign
  | unbalanced hbal => exact assertBalanced_benign hbal
  | @post w b x _ hw hfunds hfails _ =>
    refine hfails.benign fun before p after hsplit a ha hkind => ?_
    have hgt := hv.housed.wallet_gt hw
    have hnonneg : 0 ≤ v.balanceOf p.accountId := hv.tidy _ a ha hkind
    rw [ordered_place hgt] at hsplit
    change 0 ≤ v.balanceOf p.accountId + _ + _
    rcases before with _ | ⟨q, before⟩
    · injection hsplit with hp
      rw [← hp] at hnonneg ⊢
      simp only [net_nil, add_zero]
      exact add_nonneg hnonneg hpos.le
    · rcases before with _ | ⟨q', before⟩
      · simp only [List.cons_append, List.nil_append, List.cons.injEq] at hsplit
        obtain ⟨hq, hp, -⟩ := hsplit
        have hne : escrowId ≠ w := (Nat.lt_trans (by decide : escrowId < 3) hgt).ne
        rw [← hp, ← hq, net_cons, if_neg hne, net_nil, Money.negate_minor]
        simp only [add_zero]
        omega
      · simp at hsplit
  | _ => exact ⟨by simp, by simp⟩

/-! ## The terms of `placeBet` -/

section
variable {config : Config} {input : PlaceBetInput}

/-- The terms of `placeBet` allow each row lock where it takes it. -/
theorem placeBetGuards (config : Config) (input : PlaceBetInput) :
    PlaceBetGuards (terms config (.placeBet input)) input where
  held _ _ _ h := fun _ _ => .inl h
  round f _ h := fun _ _ => .inr (.round fun k hk => by rw [h] at hk; cases hk)
  wallet _ _ _ hw hrows := fun _ _ => .inr (.wallet hw hrows)
  bet _ _ _ _ hw hrows := fun _ _ => .inr (.fresh hw hrows)
  escrow _ _ _ _ hw hid hrows := fun _ _ => .inr (.stake hw hid hrows)

/-- No balance read under a lock was below the stake. -/
def Quiet (input : PlaceBetInput) (f : Standing Db LockKey Write) : Prop :=
  ∀ e ∈ f.log, e.key = none ∨ underLock (Covers input.userId input.stakeMinor) e

/-- Without a read of the wallet no lack of funds has been seen. -/
theorem Quiet.not_short {f : Standing Db LockKey Write} (h : Quiet input f) :
    ¬ShortRead input f := by
  rintro ⟨e, he, w, hkey, hw, hlt⟩
  rcases h e he with hnone | hcovers
  · rw [hkey] at hnone
    cases hnone
  · exact absurd (hcovers w hkey hw) (not_le.2 hlt)

/-- Nor is one answered. -/
theorem Quiet.refusal {α : Type} {f : Standing Db LockKey Write} {r : Except AppError α}
    (h : Quiet input f) (hr : ∀ e, r = .error e → Benign e) : Refusal input r f where
  trigger a kind n he := (hr _ he).1 a kind n rfl
  short a n he := absurd rfl ((hr _ he).2 a n)
  refused hshort := absurd hshort h.not_short

/-- A read without a lock leaves it so. -/
theorem Quiet.saw {f : Standing Db LockKey Write} (h : Quiet input f) (v : Db) :
    Quiet input (f.saw v) := by
  intro e he
  rcases List.mem_append.1 he with he | he
  · exact h e he
  · rw [List.mem_singleton.1 he]
    exact .inl rfl

/-- How the transaction of `placeBet` ends. -/
def placeBetEnds (input : PlaceBetInput) : Post Db LockKey Write AppError BetView
  | .ok _, f, _ => Quiet input f
  | .error e, f, _ => (Benign e ∧ Quiet input f) ∨
      ∃ a n, e = .insufficientFunds a n ∧ ShortRead input f

/-- The transaction of `placeBet` places one bet or nothing, and refuses for lack of funds only
when it has read it. -/
theorem placeBetTransaction_verified {s : Db} (hs : Consistent config s) {stake : Money}
    (hstake : stake.minor = input.stakeMinor) (hpos : 0 < stake.minor) :
    wp database (books config) (terms config (.placeBet input))
      (transaction (placeBetTransaction input stake)) {} s (placeBetEnds input) := by
  have hquiet : ∀ {f' : Standing Db LockKey Write},
      (∀ e ∈ f'.log, e ∈ ({} : Standing Db LockKey Write).log ∨ e.key = none ∨
        underLock (Covers input.userId stake.minor) e) → Quiet input f' := by
    intro f' h e he
    rcases h e he with hmem | h
    · cases hmem
    · rwa [hstake] at h
  refine wp_transaction (wp_placeBetTransaction (books_regime config)
    (terms_fair config (.placeBet input)) (fun _ h => h) (placeBetGuards config input) hs hpos rfl
    rfl (fun f' s' b P _ => ?_) (fun locks f' s' r w priced x p e₁ e₂ P hplacing => ?_)
    (fun f' s' w _ hw hlt hlog _ => ?_) fun e f' s' hab hfails => ?_)
  · intro s'' _ _
    refine ⟨fun _ => ⟨⟨[], by rw [P.pending]; rfl, trivial, .inl rfl⟩, hquiet P.log⟩,
      fun e he => .inl ⟨deferred_benign he, hquiet P.log⟩⟩
  · intro s'' hs'' _
    have hp := hplacing s'' hs''
    refine ⟨fun _ => ⟨⟨[.place (input.bet stake priced x) p, .aside (.notify e₁),
      .aside (.notify e₂)], by rw [P.pending]; rfl, ⟨hp.places, rfl, rfl, trivial⟩,
      .inr ⟨_, p, e₁, e₂, rfl, rfl, rfl, rfl, hstake⟩⟩, hquiet P.log⟩,
      fun e he => .inl ⟨deferred_benign he, hquiet P.log⟩⟩
  · intro s'' _
    exact .inr ⟨_, _, rfl, ⟨_, hlog, w, rfl, hw, hstake ▸ hlt⟩⟩
  · intro s'' _
    exact .inl ⟨hfails.benign hab.rely.inv hpos, hquiet hab.log⟩

/-- The loser of the race for the unique index reads back what the winner wrote. -/
theorem placeBetRecover_verified {s : Db} {f : Standing Db LockKey Write} {e : AppError}
    (h : placeBetEnds input (.error e) f s) :
    wp database (books config) (terms config (.placeBet input)) (placeBetRecover input e) f s
      (fun r f _ => Refusal input r f) := by
  have hthrow : Refusal (α := BetView) input (.error e) f := by
    rcases h with ⟨hbenign, hquiet⟩ | ⟨a, n, rfl, hshort⟩
    · exact hquiet.refusal fun e' he => by cases he; exact hbenign
    · exact ⟨by simp [NotTrigger], fun _ _ _ => hshort, fun _ => .inr ⟨a, n, rfl⟩⟩
  unfold placeBetRecover
  split
  case isFalse => exact hthrow
  case isTrue hunique =>
    have hquiet : Quiet input f := by
      rcases h with ⟨-, hquiet⟩ | ⟨a, n, he, -⟩
      · exact hquiet
      · rw [hunique] at he
        cases he
    refine wp_bind.2 (wp_select fun s' hs' => onValue_ok ?_)
    cases findByIdempotencyKey input.userId input.idempotencyKey (f.view database s') with
    | some existing => exact (hquiet.saw _).refusal (by simp)
    | none =>
      refine (hquiet.saw _).refusal fun e' he => ?_
      cases he
      rw [hunique]
      exact ⟨by simp, by simp⟩

/-- `placeBet` keeps the discipline of the books and its own terms. -/
theorem placeBet_verified {s : Db} (hs : Consistent config s) :
    wp database (books config) (terms config (.placeBet input))
      (Reply.bet <$> placeBet config input) {} s (Call.answer (.placeBet input)) := by
  have hmap : ∀ {r : Except AppError BetView} {f}, Refusal input r f →
      Refusal input (r.map Reply.bet) f := by
    intro r f h
    cases r with
    | ok v =>
      have hshort : ¬ ShortRead input f := fun hshort => by simpa using h.refused hshort
      exact ⟨by simp [NotTrigger, Except.map], by simp [Except.map], fun h' => absurd h' hshort⟩
    | error e =>
      refine ⟨fun a k n he => h.trigger a k n (by cases he; rfl),
        fun a n he => h.short a n (by cases he; rfl), fun hshort => ?_⟩
      rcases h.refused hshort with he | ⟨a, n, he⟩
      · cases he
        exact .inl rfl
      · cases he
        exact .inr ⟨a, n, rfl⟩
  have hempty : Quiet input {} := fun e he => by cases he
  refine wp_map (wp_mono (fun r f s h => hmap h) (Q := fun r f _ => Refusal input r f) ?_)
  unfold placeBet
  split
  case isTrue => exact hempty.refusal fun e he => by cases he; exact ⟨by simp, by simp⟩
  case isFalse hrange =>
    refine wp_bind.2 (wp_check ?_)
    cases hstake : Money.fromMinor input.stakeMinor with
    | error e =>
      unfold Money.fromMinor at hstake
      split at hstake
      · cases hstake
      · cases hstake
        exact hempty.refusal fun e he => by cases he; exact ⟨by simp, by simp⟩
    | ok stake =>
      have hminor := Money.fromMinor_ok hstake
      have hpos : 0 < stake.minor := by
        have hmin := config.minStake_pos
        rw [hminor]
        omega
      refine onValue_ok (wp_handle.2 (wp_mono (fun r f s h => ?_)
        (placeBetTransaction_verified hs hminor hpos)))
      cases r with
      | ok v => exact Quiet.refusal h (by simp)
      | error e => exact placeBetRecover_verified h

end

end Tessera
