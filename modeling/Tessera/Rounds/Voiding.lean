import Tessera.Books.Alone
import Tessera.Books.Constraints
import Tessera.Rounds.Safety

/-!
# Voiding a round

`voidRound` with nobody else at work.  A live round is voided, and each of its active bets refunded,
as long as the wallets that are refunded keep balances that the program can read.  A round that has
been resolved has a time at which it crashed, and the table has no row that is voided and has one.

* `reachable_unresolved` — a live round has not been resolved;
* `RoundUpdate.voided_violated`, `BetUpdate.refunded_violated` — the rows that are written satisfy
  their constraints;
* `Cleared.refund` — one bet of the loop;
* `Db.Refundable`, `Voided` — when a round can be voided, and what then has changed;
* `voidRound_reachable` — what becomes of every round.

Source: `src/src/rounds/round-engine.service.ts` `voidRound`, `refundBet`,
`migrations/1757900004000_void-refunds.sql` `rounds_voided_has_no_crash`.
-/

namespace Tessera

open Relational Transactions Transactions.Program

/-! ## A live round has not been resolved -/

/-- A live round has not been resolved. -/
def Unresolved (s : Db) : Prop :=
  ∀ r ∈ s.rounds, r.status.isLive = true → r.resolvedAt = none

/-- A round that has not started has not been resolved. -/
theorem Round.Sound.unresolved {r : Round} (h : r.Sound) (hstarted : r.startedAt = none) :
    r.resolvedAt = none := by
  have hall := firstViolated_none h.checks
  simp only [List.forall_mem_cons] at hall
  obtain ⟨-, -, -, -, -, -, hresolved, -⟩ := hall
  by_contra hne
  obtain ⟨time, htime⟩ := Option.ne_none_iff_exists'.1 hne
  rw [htime, hstarted] at hresolved
  cases hresolved

section
variable {config : Config} {crypto : Crypto} {s : Db} {rows : List Write}

/-- Whether live rounds are unresolved depends on the rounds only. -/
theorem Unresolved.of_eq (h : Unresolved s) {s' : Db} (hrounds : s'.rounds = s.rounds) :
    Unresolved s' := by
  unfold Unresolved
  rw [hrounds]
  exact h

/-- A transition to a live status does not resolve the round. -/
theorem Transition.unresolved {r : Round} {u : RoundUpdate} (h : Transition r u) (hr : r.Sound)
    (hlive : (u.row r).status.isLive = true) : (u.row r).resolvedAt = none := by
  cases h with
  | lock h => exact hr.unresolved (hr.waiting (.inl h))
  | start h now => exact hr.unresolved (hr.waiting (.inr h))
  | resolve h now => cases hlive
  | settle h now => cases hlive
  | void h now => cases hlive

/-- Writes that open a round or make one transition keep live rounds unresolved. -/
theorem Unresolved.after (h : Unresolved s) (hs : Lifecycle s)
    (hchange : RoundChange s (rowsOn .rounds rows)) :
    Unresolved (database.applyAll s rows) := by
  refine Unresolved.of_eq ?_ (applyAll_rounds s rows)
  generalize rowsOn .rounds rows = changed at hchange
  cases hchange with
  | none => exact h
  | @opened r hid hstatus hsound _ =>
    intro q hq hlive
    rcases List.mem_append.1 hq with hq | hq
    · exact h q hq hlive
    · rw [List.mem_singleton.1 hq]
      exact hsound.unresolved (hsound.waiting (.inl hstatus))
  | @moved id r u hrow ht _ =>
    intro q hq hlive
    obtain ⟨q₀, hq₀, ⟨hkey, rfl⟩ | ⟨-, rfl⟩⟩ := mem_modify hq
    · obtain rfl : q₀ = r := eq_of_key hs.ids hq₀ (lookup_mem hrow) (hkey.trans (lookup_key hrow).symm)
      exact ht.unresolved (hs.sound q₀ hq₀) hlive
    · exact h q hq₀ hlive

/-- In every state that is reached live rounds are unresolved. -/
theorem reachable_unresolved {w : System} (h : Reaches config crypto w) : Unresolved w.db := by
  induction h with
  | refl => exact fun _ hr => absurd hr List.not_mem_nil
  | @tail w w' e hrun _ he ih =>
    have hsound := reachable_inOrder hrun
    obtain ⟨-, hchange, -⟩ := hsound.step lifecycle_verified (admits_inOrder w e) he
    have hlifecycle := hsound.inv.2
    generalize w'.db = s' at hchange
    cases hchange with
    | none => exact ih
    | commit _ _ hcommits => exact ih.after hlifecycle hcommits.2
    | draw _ _ hdraws => exact ih.of_eq (sameBooks_draw hdraws.1).2

end

/-! ## The rows that are written -/

/-- No constraint is violated if and only if all of them hold. -/
theorem firstViolated_eq_none {checks : List (String × Bool)} :
    firstViolated checks = none ↔ ∀ c ∈ checks, c.2 = true := by
  refine ⟨firstViolated_none, fun h => ?_⟩
  unfold firstViolated
  rw [Option.map_eq_none_iff, List.find?_eq_none]
  intro c hc
  rw [h c hc]
  simp

/-- What `voidRound` sets. -/
def Round.voiding (r : Round) (now : Time) : RoundUpdate :=
  { status := .VOIDED, settledAt := some now, seedRevealed := some r.seed }

/-- A row can be voided unless it has a time at which it was resolved. -/
theorem Round.voiding_violated {r : Round} (h : r.violated = none) (now : Time) :
    ((r.voiding now).row r).violated = none ↔ r.resolvedAt = none := by
  have hall := firstViolated_none h
  simp only [List.forall_mem_cons] at hall
  obtain ⟨hindex, hcrash, -, houtcome, -, -, hstarted, -, hpocket, -⟩ := hall
  unfold Round.violated
  rw [firstViolated_eq_none]
  simp only [List.forall_mem_cons]
  constructor
  · rintro ⟨-, -, -, -, -, -, -, hvoided, -⟩
    simpa [Round.voiding, RoundUpdate.row] using hvoided
  · intro hnone
    refine ⟨hindex, hcrash, rfl, houtcome, ?_, rfl, hstarted, ?_, hpocket, List.forall_mem_nil _⟩
    · simp [Round.voiding, RoundUpdate.row]
    · simp [Round.voiding, RoundUpdate.row, hnone]

/-- What `refundBet` sets. -/
def Bet.refunding (b : Bet) (now : Time) : BetUpdate :=
  { status := .VOIDED, payoutMinor := b.stakeMinor, settledAt := now }

/-- An active bet can be refunded. -/
theorem Bet.refunding_violated {b : Bet} (h : b.violated = none) (hactive : b.status = .ACTIVE)
    (now : Time) : ((b.refunding now).row b).violated = none := by
  have hall := firstViolated_none h
  simp only [List.forall_mem_cons] at hall
  obtain ⟨htogether, hmultiplier, -, hodds, -, hselection, hstake, -⟩ := hall
  have hstake' : 0 < b.stakeMinor.minor := by simpa using hstake
  unfold Bet.violated
  rw [firstViolated_eq_none]
  simp only [List.forall_mem_cons]
  refine ⟨?_, hmultiplier, rfl, hodds, ?_, hselection, hstake, List.forall_mem_nil _⟩
  · simpa [Bet.refunding, BetUpdate.row, hactive] using htogether
  · simpa [Bet.refunding, BetUpdate.row] using hstake'.le

/-! ## The refund of a stake -/

/-- The legs of a refund. -/
def refundPostings (w : Uuid) (stake : Money) : List Posting :=
  [⟨escrowId, stake.negate⟩, ⟨w, stake⟩]

/-- A refund goes from escrow to the wallet. -/
theorem net_refund (w : Uuid) (stake : Money) (i : Uuid) :
    net (refundPostings w stake) i =
      (if i = w then stake.minor else 0) - (if i = escrowId then stake.minor else 0) := by
  simp only [refundPostings, net_cons, net_nil, Money.negate_minor, eq_comm]
  split_ifs <;> omega

/-- The sum of a refund is exact. -/
theorem refund_balanced {w : Uuid} {stake : Money} (hpos : 0 < stake.minor)
    {reference : Option Reference} :
    assertBalanced ⟨.ROUND_VOID_REFUND, refundPostings w stake, reference⟩ = .ok () := by
  refine (assertBalanced_iff _).2 ⟨le_rfl, ?_, ?_⟩
  · refine (Js.sum_eq_zero_iff (amounts_safe _) fun k hk => ?_).2 ?_
    · obtain rfl : k = 0 := by simpa [amounts, refundPostings] using hk
      exact Js.representable_of_le (by simp)
    · simp [amounts, refundPostings]
  · simp only [refundPostings, List.forall_mem_cons, Money.negate_minor]
    exact ⟨by omega, by omega, List.forall_mem_nil _⟩

section
variable {config : Config} {v : Db} {b : Bet} {w : Uuid}

/-- The database accepts a refund that leaves the wallet a safe integer. -/
theorem refund_accepts (hv : Consistent config v) (hranged : Ranged v)
    (hb : v.bet b.id = some b) (hactive : b.status = .ACTIVE)
    (hw : v.walletOf b.userId = some w)
    (hsafe : Js.isSafeInteger (v.balanceOf w + b.stakeMinor.minor) = true) :
    Accepts v (refundPostings w b.stakeMinor) := by
  have hstake : 0 < b.stakeMinor.minor := (hv.fits b (Db.bet_mem hb)).stake
  have hle := hv.stake_le_escrow hb hactive
  have hgt := hv.housed.wallet_gt hw
  have hne : w ≠ escrowId := by
    intro heq
    rw [heq] at hgt
    exact absurd hgt (by decide)
  have hnow := hv.now_fits hranged
  obtain ⟨a, ha, rfl⟩ := Db.walletOf_eq_some.1 hw
  have haccount := hv.keyed.wallet_account ha
  refine accepts_of_fits hnow ?_ ?_ (fun id => ?_) ?_
  · simp only [refundPostings, List.forall_mem_cons, Money.negate_minor]
    exact ⟨by omega, by omega, List.forall_mem_nil _⟩
  · simp only [Named, refundPostings, List.forall_mem_cons]
    refine ⟨⟨hv.housed.system_account.2.1, hv.system_row.2.1⟩, ⟨?_, hv.keyed.wallet_row hw⟩,
      List.forall_mem_nil _⟩
    rw [haccount]
    rfl
  · -- the two legs are on different accounts
    by_cases hid : id = escrowId
    · refine .inr fun n hn => ?_
      obtain ⟨p, hp, hpid, rfl⟩ := mem_legsOf.1 hn
      simp only [refundPostings, List.mem_cons, List.not_mem_nil, or_false] at hp
      rcases hp with rfl | rfl
      · simp only [Money.negate_minor]
        omega
      · exact absurd (hpid.trans hid) hne
    · refine .inl fun n hn => ?_
      obtain ⟨p, hp, hpid, rfl⟩ := mem_legsOf.1 hn
      simp only [refundPostings, List.mem_cons, List.not_mem_nil, or_false] at hp
      rcases hp with rfl | rfl
      · exact absurd hpid.symm hid
      · exact hstake.le
  · have hsafe' := Js.isSafeInteger_iff.1 hsafe
    have hmax : Js.maxSafeInteger < 2 ^ 63 := by decide
    have hescrow := (hnow escrowId).range
    have hwallet := (hnow a.id).range
    unfold inBigint at hescrow hwallet
    rw [decide_eq_true_eq] at hescrow hwallet
    simp only [refundPostings, List.forall_mem_cons]
    refine ⟨?_, ?_, List.forall_mem_nil _⟩
    · rw [show net _ escrowId = -b.stakeMinor.minor by
        rw [← refundPostings, net_refund, if_neg hne.symm, if_pos rfl, zero_sub]]
      refine ⟨?_, fun _ _ _ => by omega⟩
      unfold inBigint
      rw [decide_eq_true_eq]
      omega
    · rw [show net _ a.id = b.stakeMinor.minor by
        rw [← refundPostings, net_refund, if_pos rfl, if_neg hne, sub_zero]]
      refine ⟨?_, fun a' ha' hkind => ?_⟩
      · unfold inBigint
        rw [decide_eq_true_eq]
        omega
      · have hpos := (hnow a.id).funded a' ha' hkind
        omega

end

/-! ## One bet of the loop -/

/-- How a bet is closed when its round is voided. -/
def Refunded (b : Bet) (u : BetUpdate) : Prop := ∃ now, u = b.refunding now

/-- Where the loop of `voidRound` stands. -/
abbrev Refunding (config : Config) (s₀ : Db) (bets : List Bet) (es : List Effect)
    (f : Standing Db LockKey Write) (s : Db) : Prop :=
  Cleared config Refunded (fun b => b.stakeMinor.minor) s₀ bets es f s

section
variable {config : Config} {s₀ s s' : Db} {f f' : Standing Db LockKey Write}
variable {es : List Effect} {bets : List Bet} {b : Bet} {w : Uuid}

/-- A refund moves a stake from escrow to the wallet. -/
theorem Bet.moves_refund (hw : s₀.walletOf b.userId = some w) (id : Uuid) :
    b.moves s₀ b.stakeMinor.minor id =
      (if id = w then b.stakeMinor.minor else 0) - if id = escrowId then b.stakeMinor.minor else 0 := by
  unfold Bet.moves
  rw [hw, sub_self]
  simp only [Option.some.injEq, eq_comm, ite_self, add_zero]

/-- One more bet of the round is refunded, unless its wallet is full. -/
theorem Cleared.refund (h₀ : Consistent config s₀) (hs₀ : Constrained s₀)
    (C : Refunding config s₀ bets es f s) (hb : s₀.bet b.id = some b) (hactive : b.status = .ACTIVE)
    (hnew : b.id ∉ bets.map Bet.id) (hw : s₀.walletOf b.userId = some w)
    {Q : Post Db LockKey Write AppError Unit}
    (hok : ∀ es' f' s', Refunding config s₀ (bets ++ [b]) es' f' s' →
      Js.isSafeInteger ((database.applyAll s₀ (rowsOf es')).balanceOf w) = true → Q (.ok ()) f' s')
    (herror : ∀ e f' s',
      Js.isSafeInteger ((database.applyAll s₀ (rowsOf es)).balanceOf w + b.stakeMinor.minor) ≠ true →
      Alike s₀ s' → Q (.error e) f' s') :
    ends database FreshId (refundBet b) f s Q := by
  have hv := C.inv h₀
  have hb' : (database.applyAll s₀ (rowsOf es)).bet b.id = some b := (C.others b.id hnew).trans hb
  have hw' := (C.walletOf b.userId).trans hw
  have hstake : 0 < b.stakeMinor.minor := (h₀.fits b (Db.bet_mem hb)).stake
  have hgt := h₀.housed.wallet_gt hw
  have hne : w ≠ escrowId := by
    intro heq
    rw [heq] at hgt
    exact absurd hgt (by decide)
  have hnet : ∀ i, net (refundPostings w b.stakeMinor) i =
      (if i = w then b.stakeMinor.minor else 0) -
        (if i = escrowId then b.stakeMinor.minor else 0) +
        (if i = houseId then b.stakeMinor.minor - b.stakeMinor.minor else 0) := by
    intro i
    rw [net_refund]
    simp
  refine ends_bind.2 (ends_read fun x _ => thenEnds_ok ?_)
  refine ends_bind.2 (C.toAlone.updateActiveBet (u := b.refunding x.now) hb' hactive
    (Bet.refunding_violated (hs₀.bets _ b hb) hactive x.now) fun f₁ W₁ => thenEnds_ok ?_)
  refine ends_bind.2 (W₁.getWallet hw' fun f₂ W₂ => thenEnds_ok ?_)
  refine ends_bind.2 (Alone.closePost h₀ W₂ hb' hactive hw' hstake.le (fun _ => rfl) rfl
    (refund_balanced hstake) (by simp [amounts, refundPostings]) hnet
    (fun posted p f₃ s₃ haccepts hpostings W₃ => thenEnds_ok ?_) fun e f' s' hrejects halike =>
      herror e f' s' (fun hsafe => hrejects (refund_accepts hv C.ranged hb' hactive hw' hsafe))
        halike)
  have hrows : ∀ q ∈ p.postings,
      ((database.applyAll s₀ (rowsOf es)).balance q.accountId).isSome = true := by
    rw [hpostings]
    exact fun q hq => (((accepts_iff _ _).1 haccepts).2.1 q hq).2
  rw [← hpostings] at hnet
  have C₃ : Refunding config s₀ (bets ++ [b]) (es ++ [.close b.id (b.refunding x.now) p]) f₃ s₃ :=
    C.close W₃ (by simp) ⟨_, rfl⟩ rfl hb hnew hw hrows hnet
  obtain ⟨u, -, hrow⟩ := C₃.closed b (by simp)
  have hbalance : (database.applyAll s₀ (rowsOf (es ++ [.close b.id (b.refunding x.now) p]))).balanceOf
      w = (database.applyAll s₀ (rowsOf es)).balanceOf w + b.stakeMinor.minor := by
    rw [C₃.moved, C.moved, List.map_append, List.sum_append, List.map_singleton, List.sum_singleton,
      Bet.moves_refund hw, if_pos rfl, if_neg hne, sub_zero, add_assoc]
  refine W₃.publishBetOutcome (w := w) hrow (fun e₁ e₂ f₄ hsafe W₄ => ?_) fun e f₄ hunsafe => ?_
  · rw [List.append_assoc] at W₄
    have C₄ : Refunding config s₀ (bets ++ [b]) _ f₄ s₃ :=
      C.close W₄ (by simp) ⟨_, rfl⟩ rfl hb hnew hw hrows hnet
    refine hok _ f₄ s₃ C₄ ?_
    rw [C₄.moved, ← C₃.moved]
    exact hsafe
  · rw [hbalance] at hunsafe
    exact herror e f₄ s₃ hunsafe W₃.alike

end

/-! ## All bets of the loop -/

/-- The stakes of a user among some bets. -/
def refundsOf (bets : List Bet) (userId : Uuid) : ℤ :=
  (bets.map fun b => if b.userId = userId then b.stakeMinor.minor else 0).sum

/-- Every wallet that is refunded keeps a balance that the program can read. -/
def Db.Refundable (s : Db) (roundId : Uuid) : Prop :=
  ∀ b ∈ s.activeBets roundId, ∀ w, s.walletOf b.userId = some w →
    Js.isSafeInteger (s.balanceOf w + refundsOf (s.activeBets roundId) b.userId) = true

/-- One more refund. -/
theorem refundsOf_snoc (bets : List Bet) (b : Bet) (userId : Uuid) :
    refundsOf (bets ++ [b]) userId =
      refundsOf bets userId + if b.userId = userId then b.stakeMinor.minor else 0 := by
  simp [refundsOf]

/-- What a user gets back does not depend on the order of the bets. -/
theorem refundsOf_perm {bets bets' : List Bet} (h : bets.Perm bets') (userId : Uuid) :
    refundsOf bets userId = refundsOf bets' userId :=
  (h.map _).sum_eq

/-- Some of the bets are not refunded more than all of them. -/
theorem refundsOf_le {bets rest : List Bet} (h : ∀ b ∈ rest, 0 < b.stakeMinor.minor)
    (userId : Uuid) : refundsOf bets userId ≤ refundsOf (bets ++ rest) userId := by
  have hrest : 0 ≤ refundsOf rest userId := by
    refine List.sum_nonneg fun n hn => ?_
    obtain ⟨b, hb, rfl⟩ := List.mem_map.1 hn
    have hpos := h b hb
    split <;> omega
  unfold refundsOf at hrest ⊢
  rw [List.map_append, List.sum_append]
  omega

section
variable {config : Config} {s₀ s s' : Db} {f f' : Standing Db LockKey Write}
variable {es : List Effect} {bets : List Bet} {roundId userId w : Uuid}

/-- A wallet has been refunded what its owner has staked. -/
theorem Cleared.refunded (h₀ : Consistent config s₀) (C : Refunding config s₀ bets es f s)
    (hw : s₀.walletOf userId = some w) :
    (database.applyAll s₀ (rowsOf es)).balanceOf w = s₀.balanceOf w + refundsOf bets userId := by
  have hgt := h₀.housed.wallet_gt hw
  have hne : w ≠ escrowId := by
    intro heq
    rw [heq] at hgt
    exact absurd hgt (by decide)
  rw [C.moved]
  refine congrArg (s₀.balanceOf w + List.sum ·) (List.map_congr_left fun b _ => ?_)
  unfold Bet.moves
  rw [sub_self, if_neg hne, ite_self, sub_zero, add_zero]
  refine if_congr ⟨fun hb => ?_, fun hb => ?_⟩ rfl rfl
  · exact h₀.keyed.wallet_injective hb hw
  · rw [hb]
    exact hw

/-- The wallet of a bet. -/
theorem Consistent.wallet_of_bet (h₀ : Consistent config s₀) {b : Bet} (hb : b ∈ s₀.bets) :
    ∃ w, s₀.walletOf b.userId = some w := by
  obtain ⟨u, hu, huser⟩ := List.mem_map.1 (h₀.fits b hb).user
  rw [← huser]
  exact Option.isSome_iff_exists.1 (h₀.housed.owners u hu)

/-- No wallet is overdrawn. -/
theorem Consistent.wallet_nonneg (h₀ : Consistent config s₀) (hw : s₀.walletOf userId = some w) :
    0 ≤ s₀.balanceOf w := by
  obtain ⟨a, ha, rfl⟩ := Db.walletOf_eq_some.1 hw
  refine h₀.tidy a.id a (h₀.keyed.wallet_account ha) ?_
  rw [h₀.housed.wallet_kind ha]
  rfl

/-- The bets of a round are refunded one by one. -/
theorem Cleared.refundAll (h₀ : Consistent config s₀) (hs₀ : Constrained s₀)
    (C : Refunding config s₀ [] es f s) (hperm : bets.Perm (s₀.activeBets roundId))
    {Q : Post Db LockKey Write AppError Unit}
    (hok : ∀ es' f' s', Refunding config s₀ bets es' f' s' → s₀.Refundable roundId →
      Q (.ok ()) f' s')
    (herror : ∀ e f' s', ¬s₀.Refundable roundId → Alike s₀ s' → Q (.error e) f' s') :
    ends database FreshId (forEach refundBet bets) f s Q := by
  have hactive : ∀ b ∈ bets, b ∈ s₀.bets ∧ b.roundId = roundId ∧ b.status = .ACTIVE :=
    fun b hb => Db.mem_activeBets.1 (hperm.mem_iff.1 hb)
  have hstake : ∀ b ∈ bets, 0 < b.stakeMinor.minor :=
    fun b hb => (h₀.fits b (hactive b hb).1).stake
  have hnodup : (bets.map Bet.id).Nodup := by
    refine (hperm.map Bet.id).nodup_iff.2 ?_
    exact List.Nodup.sublist (List.filter_sublist.map _) h₀.keyed.bets
  -- the wallets refunded so far can be read
  let I : List Bet → Standing Db LockKey Write → Db → Prop := fun closed f s =>
    ∃ es, Refunding config s₀ closed es f s ∧ ∀ c ∈ closed, ∀ w, s₀.walletOf c.userId = some w →
      Js.isSafeInteger (s₀.balanceOf w + refundsOf closed c.userId) = true
  refine ends_forEach I [] ⟨es, C, fun _ hc => absurd hc List.not_mem_nil⟩ ?_ ?_
  · rintro closed b after hsplit f₁ s₁ ⟨es₁, C₁, hread⟩
    rw [List.nil_append] at hsplit
    have hb : b ∈ bets := by
      rw [hsplit]
      simp
    obtain ⟨w, hw⟩ := h₀.wallet_of_bet (hactive b hb).1
    have hnew : b.id ∉ closed.map Bet.id := by
      rw [hsplit, List.map_append, List.map_cons] at hnodup
      intro hmem
      exact List.disjoint_of_nodup_append hnodup hmem List.mem_cons_self
    have hsofar := C₁.refunded h₀ hw
    refine C₁.refund h₀ hs₀ (lookup_of_mem h₀.keyed.bets (hactive b hb).1) (hactive b hb).2.2 hnew hw
      (fun es₂ f₂ s₂ C₂ hsafe => ?_) fun e f₂ s₂ hunsafe halike => ?_
    · rw [C₂.refunded h₀ hw] at hsafe
      refine ⟨es₂, C₂, fun c hc w' hw' => ?_⟩
      by_cases huser : b.userId = c.userId
      · rw [← huser] at hw' ⊢
        obtain rfl : w = w' := Option.some.inj (hw.symm.trans hw')
        exact hsafe
      · -- another wallet, which this refund leaves as it was
        rw [refundsOf_snoc, if_neg huser, add_zero]
        rcases List.mem_append.1 hc with hc | hc
        · exact hread c hc w' hw'
        · exact absurd (congrArg Bet.userId (List.mem_singleton.1 hc)).symm huser
    · refine herror e f₂ s₂ (fun hrefundable => hunsafe ?_) halike
      have hall := hrefundable b (hperm.mem_iff.1 hb) w hw
      have hle : refundsOf (closed ++ [b]) b.userId ≤ refundsOf (closed ++ [b] ++ after) b.userId :=
        refundsOf_le (fun c hc => hstake c (by rw [hsplit]; simp [hc])) _
      have hnonneg : refundsOf [] b.userId ≤ refundsOf ([] ++ closed) b.userId :=
        refundsOf_le (fun c hc => hstake c (by rw [hsplit]; simp [hc])) _
      have hpos := hstake b hb
      have hwallet := h₀.wallet_nonneg hw
      rw [← refundsOf_perm hperm, hsplit] at hall
      rw [List.append_assoc, List.singleton_append, refundsOf_snoc, if_pos rfl] at hle
      rw [List.nil_append, show refundsOf [] b.userId = 0 from rfl] at hnonneg
      rw [Js.isSafeInteger_iff] at hall ⊢
      have hmax : 0 ≤ Js.maxSafeInteger := by decide
      omega
  · rintro f₁ s₁ ⟨es₁, C₁, hread⟩
    refine hok es₁ f₁ s₁ C₁ fun b hb w hw => ?_
    rw [← refundsOf_perm hperm]
    exact hread b (hperm.mem_iff.2 hb) w hw

end

/-! ## The whole transaction -/

/-- What has changed when a round is voided. -/
structure Voided (r : Round) (s s' : Db) : Prop where
  round : ∃ now, s'.round r.id = some ((r.voiding now).row r)
  rounds : ∀ id, id ≠ r.id → s'.round id = s.round id
  refunded : ∀ b ∈ s.activeBets r.id, ∃ now, s'.bet b.id = some ((b.refunding now).row b)
  bets : ∀ id, id ∉ (s.activeBets r.id).map Bet.id → s'.bet id = s.bet id
  escrow : s'.balanceOf escrowId =
    s.balanceOf escrowId - ((s.activeBets r.id).map fun b => b.stakeMinor.minor).sum
  house : s'.balanceOf houseId = s.balanceOf houseId
  mint : s'.balanceOf mintId = s.balanceOf mintId
  wallets : ∀ userId w, s.walletOf userId = some w →
    s'.balanceOf w = s.balanceOf w + refundsOf (s.activeBets r.id) userId
  elsewhere : SameElsewhere s s'

/-- The counter of the entries does not matter. -/
theorem Voided.alike {r : Round} {s s' s'' : Db} (h : Voided r s s') (halike : Alike s' s'') :
    Voided r s s'' where
  round := by
    rw [halike.round]
    exact h.round
  rounds id hid := (halike.round id).trans (h.rounds id hid)
  refunded b hb := by
    rw [halike.bet]
    exact h.refunded b hb
  bets id hid := (halike.bet id).trans (h.bets id hid)
  escrow := (halike.balanceOf _).trans h.escrow
  house := (halike.balanceOf _).trans h.house
  mint := (halike.balanceOf _).trans h.mint
  wallets userId w hw := (halike.balanceOf w).trans (h.wallets userId w hw)
  elsewhere := h.elsewhere.alike halike

section
variable {config : Config} {s₀ s s' : Db} {f f' : Standing Db LockKey Write}
variable {es : List Effect} {bets : List Bet} {roundId : Uuid}

/-- No bet of the round is active once all are refunded. -/
theorem Cleared.noneActive (h₀ : Consistent config s₀) (C : Refunding config s₀ bets es f s)
    (hperm : bets.Perm (s₀.activeBets roundId)) :
    (database.applyAll s₀ (rowsOf es)).NoneActive roundId := by
  intro b hb hround hactive
  have hfound := lookup_of_mem (C.inv h₀).keyed.bets hb
  by_cases hid : b.id ∈ bets.map Bet.id
  · obtain ⟨c, hc, hcid⟩ := List.mem_map.1 hid
    obtain ⟨u, ⟨now, rfl⟩, hrow⟩ := C.closed c hc
    rw [hcid] at hrow
    obtain rfl : b = (c.refunding now).row c := Option.some.inj (hfound.symm.trans hrow)
    cases hactive
  · have hold : s₀.bet b.id = some b := (C.others b.id hid).symm.trans hfound
    have hmem := hperm.mem_iff.2 (Db.mem_activeBets.2 ⟨Db.bet_mem hold, hround, hactive⟩)
    exact hid (List.mem_map_of_mem hmem)

/-- The bets are refunded, and the round is moved on. -/
theorem Cleared.voided (h₀ : Consistent config s₀) {r : Round} (hr : s₀.round r.id = some r)
    (C : Refunding config s₀ bets es f s) (hperm : bets.Perm (s₀.activeBets r.id)) (now : Time)
    (e : RoundDomainEvent) :
    Voided r s₀ (database.applyAll s₀
      (rowsOf (es ++ [.advance r.id (r.voiding now), .aside (.notify e)]))) := by
  have hmove : ∀ id, id = escrowId ∨ id = houseId ∨ id = mintId →
      (database.applyAll s₀ (rowsOf es)).balanceOf id = s₀.balanceOf id -
        if id = escrowId then (bets.map fun b => b.stakeMinor.minor).sum else 0 := by
    intro id hid
    rw [C.moved, sub_eq_add_neg]
    have hsystem : ∀ b ∈ bets, b.moves s₀ b.stakeMinor.minor id =
        -if id = escrowId then b.stakeMinor.minor else 0 := by
      intro b hb
      obtain ⟨w, hw⟩ := h₀.wallet_of_bet (Db.mem_activeBets.1 (hperm.mem_iff.1 hb)).1
      have hgt := h₀.housed.wallet_gt hw
      have hne : id ≠ w := by
        rintro rfl
        rcases hid with rfl | rfl | rfl <;> exact absurd hgt (by decide)
      rw [Bet.moves_refund hw, if_neg hne, zero_sub]
    rw [List.map_congr_left hsystem]
    split
    · rw [List.sum_neg, List.map_map]
      rfl
    · simp
  rw [rowsOf_append, Database.applyAll_append]
  refine ⟨⟨now, ?_⟩, fun id hid => ?_, fun b hb => ?_, fun id hid => ?_, ?_, ?_, ?_,
    fun userId w hw => ?_, ?_⟩
  · refine lookup_modify_self (RoundUpdate.row_id _) ?_
    rw [C.rounds]
    exact hr
  · refine (lookup_modify_ne (RoundUpdate.row_id _) hid).trans ?_
    rw [C.rounds]
    rfl
  · obtain ⟨u, ⟨now, rfl⟩, hrow⟩ := C.closed b (hperm.mem_iff.2 hb)
    exact ⟨now, hrow⟩
  · refine C.others id fun hmem => hid ?_
    exact (hperm.map Bet.id).mem_iff.1 hmem
  · refine (hmove escrowId (.inl rfl)).trans ?_
    rw [if_pos rfl, (hperm.map fun b => b.stakeMinor.minor).sum_eq]
  · exact (hmove houseId (.inr (.inl rfl))).trans (sub_zero _)
  · exact (hmove mintId (.inr (.inr rfl))).trans (sub_zero _)
  · rw [← refundsOf_perm hperm]
    exact C.refunded h₀ hw
  · obtain ⟨husers, haccounts, hchains, htokens, hnonces⟩ := C.elsewhere
    exact ⟨husers, haccounts, hchains, htokens, hnonces⟩

/-- `voidRound` for a round that can be voided, or not. -/
theorem ends_voidRound (h₀ : Consistent config s₀) (hs₀ : Constrained s₀) {r : Round}
    (hr : s₀.round roundId = some r) (hchecks : r.violated = none)
    (hover : ¬(r.status = .VOIDED ∨ r.status = .SETTLED)) :
    ends database FreshId (voidRound roundId) {} s₀ fun result _ s' =>
      (result.isOk = true → r.resolvedAt = none ∧ s₀.Refundable roundId ∧ Voided r s₀ s') ∧
      (result.isOk = false → ¬(r.resolvedAt = none ∧ s₀.Refundable roundId) ∧ Alike s₀ s') := by
  obtain rfl : r.id = roundId := lookup_key hr
  have W : Alone config s₀ [] [] {} s₀ := .start hs₀.balances
  have hfail : ∀ {e : AppError} {P : Prop},
      (Except.error e : Except AppError Unit).isOk = true → P := fun h => by cases h
  refine ends_transaction (ends_bind.2 (ends_selectForLock (fun hnone => ?_) fun row hrow =>
    thenEnds_ok ?_))
  · rw [show s₀.round r.id = none from hnone] at hr
    cases hr
  obtain rfl : r = row := Option.some.inj (hr.symm.trans hrow)
  simp only [if_neg hover]
  refine ends_bind.2 (Alone.lockActiveBets ((W.saw _).locked _ _ _) h₀.keyed fun bets f₂ hperm W₂ => thenEnds_ok ?_)
  refine ends_bind.2 (Cleared.refundAll h₀ hs₀ (.start W₂) hperm
    (fun es₃ f₃ s₃ C₃ hrefundable => thenEnds_ok ?_) fun e f₃ s₃ hnot halike =>
      ⟨hfail, fun _ => ⟨fun h => hnot h.2, halike⟩⟩)
  refine ends_bind.2 (ends_read fun x _ => thenEnds_ok ?_)
  have hrow₃ : (database.applyAll s₀ (rowsOf es₃)).round r.id = some r := by
    unfold Db.round
    rw [C₃.rounds]
    exact hr
  refine ends_bind.2 (C₃.toAlone.updateRoundWhere (u := r.voiding x.now) hrow₃ rfl (by simp [Round.voiding])
    (C₃.noneActive h₀ hperm) (fun f₄ hvoided W₄ => thenEnds_ok ?_) fun e f₄ hresolved => ?_)
  · refine W₄.publish fun f₅ W₅ => ?_
    rw [List.append_assoc] at W₅
    refine ⟨fun _ => ⟨fun _ => ⟨(Round.voiding_violated hchecks _).1 hvoided, hrefundable, ?_⟩,
      fun h => by cases h⟩, fun e hd => ?_⟩
    · exact (C₃.voided h₀ hr hperm x.now _).alike W₅.view
    · rw [W₅.deferred] at hd
      cases hd
  · refine ⟨hfail, fun _ => ⟨fun h => hresolved ?_, C₃.alike⟩⟩
    exact (Round.voiding_violated hchecks x.now).2 h.1

/-- `voidRound` for a round that is over, or not there. -/
theorem ends_voidRound_over {A : Db → Inputs → Prop}
    (hover : ∀ r, s₀.round roundId = some r → r.status = .VOIDED ∨ r.status = .SETTLED) :
    ends database A (voidRound roundId) {} s₀ fun result _ s' => result.isOk = true ∧ s' = s₀ := by
  refine ends_transaction (ends_bind.2 (ends_selectForLock (fun hnone => ?_) fun r hr =>
    thenEnds_ok ?_))
  · exact ⟨fun _ => ⟨rfl, rfl⟩, fun e hd => by cases hd⟩
  · simp only [if_pos (hover r hr)]
    exact ⟨fun _ => ⟨rfl, rfl⟩, fun e hd => by cases hd⟩

end

/-! ## Every round -/

/-- `voidRound` runs to its end by itself, its `n`-th statement reading `xs n`, and commits. -/
def voidCommits (roundId : Uuid) (xs : ℕ → Inputs) (s : Db) : Bool :=
  ((voidRound roundId).finish database xs {} s).1.isOk

/-- The committed state afterwards. -/
def voidAfter (roundId : Uuid) (xs : ℕ → Inputs) (s : Db) : Db :=
  ((voidRound roundId).finish database xs {} s).2.2

/-- Every id that is drawn on the way names no journal row yet. -/
def VoidDraws (roundId : Uuid) (xs : ℕ → Inputs) (s : Db) : Prop :=
  (voidRound roundId).Reads database FreshId xs {} s

instance (roundId : Uuid) (xs : ℕ → Inputs) (s : Db) : Decidable (VoidDraws roundId xs s) :=
  inferInstanceAs (Decidable ((voidRound roundId).Reads database FreshId xs {} s))

/-- Voiding a round that is over, or none, changes nothing. -/
theorem voidRound_over {roundId : Uuid} {s : Db}
    (hover : ∀ r, s.round roundId = some r → r.status = .VOIDED ∨ r.status = .SETTLED)
    (xs : ℕ → Inputs) : voidCommits roundId xs s = true ∧ voidAfter roundId xs s = s :=
  finish_of_ends (ends_voidRound_over hover) (.of_forall fun _ _ => trivial)

/-- The end of the voiding of a round that is not over. -/
theorem voidRound_ends {config : Config} {crypto : Crypto} {w : System}
    (h : Reaches config crypto w) {roundId : Uuid} {xs : ℕ → Inputs}
    (hxs : VoidDraws roundId xs w.db) {r : Round} (hr : w.db.round roundId = some r)
    (hover : ¬(r.status = .VOIDED ∨ r.status = .SETTLED)) :
    (voidCommits roundId xs w.db = true → r.resolvedAt = none ∧ w.db.Refundable roundId ∧
      Voided r w.db (voidAfter roundId xs w.db)) ∧
    (voidCommits roundId xs w.db = false → ¬(r.resolvedAt = none ∧ w.db.Refundable roundId) ∧
      Alike w.db (voidAfter roundId xs w.db)) :=
  finish_of_ends (ends_voidRound (reachable_consistent h) (reachable_constrained h) hr
    ((reaches_lifecycle h).sound r (lookup_mem hr)).checks hover) hxs

/-- A live round is voided just if its bets can be refunded. -/
theorem voidRound_live {config : Config} {crypto : Crypto} {w : System}
    (h : Reaches config crypto w) {roundId : Uuid} {xs : ℕ → Inputs}
    (hxs : VoidDraws roundId xs w.db) {r : Round} (hr : w.db.round roundId = some r)
    (hlive : r.status.isLive = true) :
    (voidCommits roundId xs w.db = true ↔ w.db.Refundable roundId) ∧
      (voidCommits roundId xs w.db = true → Voided r w.db (voidAfter roundId xs w.db)) := by
  have hover : ¬(r.status = .VOIDED ∨ r.status = .SETTLED) := by
    rintro (hstatus | hstatus) <;> rw [hstatus] at hlive <;> cases hlive
  obtain ⟨hok, hfail⟩ := voidRound_ends h hxs hr hover
  refine ⟨⟨fun hc => (hok hc).2.1, fun hrefundable => ?_⟩, fun hc => (hok hc).2.2⟩
  by_contra hnot
  have hunresolved := reachable_unresolved h r (lookup_mem hr) hlive
  exact (hfail (Bool.eq_false_iff.2 hnot)).1 ⟨hunresolved, hrefundable⟩

/-- In every state that the system reaches, a live round is voided and its active bets are refunded,
exactly when every wallet that is refunded keeps a balance that the program can read; a resolved
round is not; a round that is over, or not there, is left as it is, also when it has just been
voided; and whatever fails leaves the tables as they were. -/
theorem voidRound_reachable {config : Config} {crypto : Crypto} {w : System}
    (h : Reaches config crypto w) (roundId : Uuid) (xs : ℕ → Inputs)
    (hxs : VoidDraws roundId xs w.db) :
    (∀ r, w.db.round roundId = some r → r.status.isLive = true →
      (voidCommits roundId xs w.db = true ↔ w.db.Refundable roundId) ∧
      (voidCommits roundId xs w.db = true → Voided r w.db (voidAfter roundId xs w.db) ∧
        ∀ ys, voidCommits roundId ys (voidAfter roundId xs w.db) = true ∧
          voidAfter roundId ys (voidAfter roundId xs w.db) = voidAfter roundId xs w.db)) ∧
    (∀ r, w.db.round roundId = some r → r.status = .RESOLVED →
      voidCommits roundId xs w.db = false) ∧
    ((∀ r, w.db.round roundId = some r → r.status = .VOIDED ∨ r.status = .SETTLED) →
      voidCommits roundId xs w.db = true ∧ voidAfter roundId xs w.db = w.db) ∧
    (voidCommits roundId xs w.db = false → Alike w.db (voidAfter roundId xs w.db)) := by
  refine ⟨fun r hr hlive => ?_, fun r hr hresolved => ?_, fun hover => voidRound_over hover xs,
    fun hfails => ?_⟩
  · obtain ⟨hiff, hvoided⟩ := voidRound_live h hxs hr hlive
    refine ⟨hiff, fun hc => ⟨hvoided hc, fun ys => voidRound_over (fun r' hr' => ?_) ys⟩⟩
    obtain ⟨now, hrow⟩ := (hvoided hc).round
    rw [lookup_key hr, hr'] at hrow
    rw [Option.some.inj hrow]
    exact .inl rfl
  · refine Bool.eq_false_iff.2 fun hc => ?_
    have hover : ¬(r.status = .VOIDED ∨ r.status = .SETTLED) := by
      rw [hresolved]
      decide
    have hsome := ((reaches_lifecycle h).sound r (lookup_mem hr)).resolved (.inl hresolved)
    rw [((voidRound_ends h hxs hr hover).1 hc).1] at hsome
    cases hsome
  · by_cases hover : ∀ r, w.db.round roundId = some r → r.status = .VOIDED ∨ r.status = .SETTLED
    · have hcommits := (voidRound_over hover xs).1
      rw [hfails] at hcommits
      cases hcommits
    · push Not at hover
      obtain ⟨r, hr, hopen⟩ := hover
      exact ((voidRound_ends h hxs hr (not_or.2 hopen)).2 hfails).2

/-- The readings of a round that is voided. -/
def voidReadings (n : ℕ) : Inputs := readingAt (2000 + n) 1000

/-- The crash round of the small game is voided, with its bet of 300. -/
theorem voidRound_reachable_smallGame :
    ∃ r, (executed smallGame).db.round (uuidAt 204) = some r ∧
      Voided r (executed smallGame).db (voidAfter (uuidAt 204) voidReadings (executed smallGame).db) ∧
      ((executed smallGame).db.activeBets r.id).map (fun b => b.stakeMinor.minor) = [300] := by
  have hsome : ((executed smallGame).db.round (uuidAt 204)).isSome = true := by decide +kernel
  obtain ⟨r, hr⟩ := Option.isSome_iff_exists.1 hsome
  have hlive : ((executed smallGame).db.round (uuidAt 204)).all (fun r => r.status.isLive) = true := by
    decide +kernel
  rw [hr] at hlive
  refine ⟨r, hr, ?_, ?_⟩
  · have h := (voidRound_reachable (reaches_executed smallGame) (uuidAt 204) voidReadings
      (by decide +kernel)).1 r hr hlive
    exact (h.2 (by decide +kernel)).1
  · rw [lookup_key hr]
    decide +kernel

/-- The small game before its roulette round is settled. -/
def resolvedGame : List (Event Inputs Call) := smallGame.take 349

/-- The resolved round is neither voided nor are its two active bets refunded. -/
theorem voidRound_resolved :
    Reaches smallConfig plainCrypto (executed resolvedGame) ∧
      ((executed resolvedGame).db.round (uuidAt 109)).map Round.status = some .RESOLVED ∧
      VoidDraws (uuidAt 109) voidReadings (executed resolvedGame).db ∧
      voidCommits (uuidAt 109) voidReadings (executed resolvedGame).db = false ∧
      ((voidAfter (uuidAt 109) voidReadings (executed resolvedGame).db).activeBets
        (uuidAt 109)).map (fun b => b.stakeMinor.minor) = [1000, 700] := by
  refine ⟨reaches_executed _, ?_⟩
  decide +kernel

end Tessera
