import Tessera.Books.System

/-!
# No bet without the funds for it

Along every run from consistent books no wallet and no escrow account is overdrawn, neither in
the committed state nor as a session sees it, and a `placeBet` moves the stake in one piece or
changes nothing.

* `Refusal` — when a `placeBet` is refused for lack of funds;
* `Placement` — what one statement of a `placeBet` does to the committed state;
* `runsFrom_funded` — the results, over every run.
-/

namespace Tessera

open Relational Transactions

/-- The tables, without the counters of the two sequences. -/
def Db.tables (s : Db) : Db := { s with nonceSeq := 0, entrySeq := 0 }

/-- The bet row, the debit and the credit of a `placeBet`, committed together. -/
structure Placed (input : PlaceBetInput) (s s' : Db) : Prop where
  absent : ∀ b ∈ s.bets, ¬ (b.userId = input.userId ∧ b.idempotencyKey = input.idempotencyKey)
  row : ∃ b, s'.bets = s.bets ++ [b] ∧ b.userId = input.userId ∧ b.roundId = input.roundId ∧
    b.idempotencyKey = input.idempotencyKey ∧ b.stakeMinor.minor = input.stakeMinor ∧
    b.status = .ACTIVE
  moved : ∃ w, s.walletOf input.userId = some w ∧
    s'.balanceOf w = s.balanceOf w - input.stakeMinor ∧
    s'.balanceOf escrowId = s.balanceOf escrowId + input.stakeMinor ∧
    ∀ id, id ≠ w → id ≠ escrowId → s'.balanceOf id = s.balanceOf id

/-- What one statement of a `placeBet` does to the committed state. -/
def Placement (input : PlaceBetInput) (s s' : Db) : Prop :=
  s'.tables = s.tables ∨ Placed input s s'

/-- No wallet and no escrow account is overdrawn. -/
def Db.Funded (s : Db) : Prop :=
  ∀ id a, s.account id = some a → a.kind = .WALLET ∨ a.kind = .ESCROW → 0 ≤ s.balanceOf id

section
variable {config : Config} {crypto : Crypto} {s : Db}

/-- Accounts that are not overdrawn are funded. -/
theorem Tidy.funded (h : Tidy s) : s.Funded := by
  intro id a ha hkind
  refine h id a ha ?_
  rcases hkind with hkind | hkind <;> rw [hkind] <;> rfl

/-- A posting that nets to zero on an account leaves its balance. -/
theorem balanceOf_posted_of_net_zero {p : Posted} {id : Uuid} (h : net p.postings id = 0) :
    (s.posted p).balanceOf id = s.balanceOf id :=
  Db.balanceOf_credit_other s h

/-- The effect of a bet that is placed. -/
theorem Places.placed (h : Consistent config s) {input : PlaceBetInput} {b : Bet} {p : Posted}
    (hb : Places b p s) (huser : b.userId = input.userId) (hround : b.roundId = input.roundId)
    (hkey : b.idempotencyKey = input.idempotencyKey)
    (hstake : b.stakeMinor.minor = input.stakeMinor) {s' : Db}
    (hbets : s'.bets = s.bets ++ [b])
    (hbalances : s'.balances = ((s.apply (.insertBet b)).posted p).balances) :
    Placed input s s' := by
  obtain ⟨w, hw, -, hmoves⟩ := hb.wallet
  obtain ⟨hwe, -, -⟩ := Places.wallet_ne h hw
  obtain ⟨-, hescrow, -⟩ := h.system_row
  have hbalance : ∀ id, s'.balanceOf id = (s.posted p).balanceOf id := by
    intro id
    unfold Db.balanceOf Db.balance
    rw [hbalances]
    rfl
  refine ⟨fun c hc hsame => ?_, ⟨b, hbets, huser, hround, hkey, hstake, hb.active⟩,
    w, huser ▸ hw, ?_, ?_, fun id hid hid' => ?_⟩
  · have hany := hb.key
    rw [List.any_eq_false] at hany
    exact hany c hc (by simp [huser, hkey, hsame])
  · rw [hbalance, Db.posted_balanceOf (h.keyed.wallet_row hw), hmoves, if_neg hwe, if_pos rfl,
      hstake]
    ring
  · rw [hbalance, Db.posted_balanceOf hescrow, hmoves, if_pos rfl, if_neg (Ne.symm hwe), hstake]
    ring
  · rw [hbalance]
    exact balanceOf_posted_of_net_zero (by rw [hmoves, if_neg hid', if_neg hid]; rfl)

/-- A statement of a `placeBet` places one bet or leaves the tables as they are. -/
theorem placement_of_change (h : Consistent config s) {input : PlaceBetInput} {rows : List Write}
    (hrows : (terms config (.placeBet input)).commits s rows) :
    Placement input s (database.applyAll s rows) := by
  obtain ⟨es, rfl, hdone, rfl | ⟨b, p, e₁, e₂, rfl, huser, hround, hkey, hstake⟩⟩ := hrows
  · exact .inl rfl
  · have hafter : database.applyAll s
        (rowsOf [.place b p, .aside (.notify e₁), .aside (.notify e₂)]) =
        (((s.apply (.insertBet b)).posted p).apply (.notify e₁)).apply (.notify e₂) := by
      rw [applyAll_rowsOf_cons]
      change database.applyAll (database.applyAll (s.apply (.insertBet b)) p.rows) _ = _
      rw [applyAll_posted]
      rfl
    refine .inr (hdone.1.placed h huser hround hkey hstake ?_ ?_)
    · rw [hafter]
      rfl
    · rw [hafter]
      rfl

end

/-- What is known of the money paths along a run. -/
structure Funding (config : Config) (crypto : Crypto) (w : System) : Prop where
  /-- Nobody is overdrawn in the committed state, -/
  committed : w.db.Funded
  /-- nor in the state as a session sees it. -/
  seen : ∀ (i : ℕ) (t : Client), w.sessions[i]? = some t →
    (t.standing.view database w.db).Funded
  /-- A `placeBet` that has ended was refused for lack of funds just when the balance that it
  read under the lock of the wallet was below the stake. -/
  refusal : ∀ (i : ℕ) (t : Client) input r, w.sessions[i]? = some t →
    t.call = .placeBet input → t.program = .done r → Refusal input r t.standing
  /-- The trigger rejected no money path. -/
  trigger : ∀ (i : ℕ) (t : Client) r, w.sessions[i]? = some t → t.call.isMoney = true →
    t.program = .done r → NotTrigger r
  /-- A `placeBet` commits its bet and its postings together, or changes nothing. -/
  placement : ∀ (i : ℕ) (t : Client) input x w', w.sessions[i]? = some t →
    t.call = .placeBet input →
    w.step database (program config crypto) (.run i x) = some w' → Placement input w.db w'.db

section
variable {config : Config} {crypto : Crypto} {s : Db}

/-- What is known of the answer of a session that has ended. -/
theorem answered {w : System}
    (hw : w.Sound database (books config) (terms config) fun _ => Call.answer) {i : ℕ} {t : Client}
    (ht : w.sessions[i]? = some t) {r : Except AppError Reply} (hr : t.program = .done r) :
    t.call.answer r t.standing w.db := by
  have hsafe := (hw.session ht).safe
  rw [hr] at hsafe
  exact hsafe

/-- From consistent books nobody is ever overdrawn, and every refusal is clean. -/
theorem runsFrom_funded (hs : Consistent config s) {w : System}
    (h : RunsFrom config crypto s w) : Funding config crypto w := by
  have hw := runsFrom_sound hs h
  refine ⟨hw.inv.tidy.funded, fun i t ht => (hw.session ht).tidy.funded,
    fun i t input r ht hc hr => ?_, fun i t r ht hc hr => ?_,
    fun i t input x w' ht hc hstep => ?_⟩
  · have hanswer := answered hw ht hr
    rw [hc] at hanswer
    exact hanswer
  · have hanswer := answered hw ht hr
    cases hcall : t.call with
    | placeBet input =>
      rw [hcall] at hanswer
      exact Refusal.trigger hanswer
    | cashOut _ | settleRound _ | voidRound _ | tickGame _ =>
      rw [hcall] at hanswer
      exact hanswer
    | _ =>
      rw [hcall] at hc
      cases hc
  · obtain ⟨-, hchange, -⟩ :=
      hw.step (system_verified config crypto) (admits_all config w (.run i x)) hstep
    generalize w'.db = s' at hchange
    cases hchange with
    | none => exact .inl rfl
    | commit event session commits =>
      cases event
      rw [ht] at session
      cases session
      rw [hc] at commits
      exact placement_of_change hw.inv commits
    | draw event session draws =>
      rcases draws with rfl | rfl <;> exact .inl rfl

end

/-- A user whose grant of 100000 does not cover two bets of 60000 on one round. -/
def overspending : List (Event Inputs Call) :=
  .start (.register ⟨"ann", "Ann", "secret"⟩) :: turns 0 50 0 ++
  .start (.openRoundIfDue .CRASH) :: turns 1 40 100 ++
  .start (.placeBet ⟨uuidAt 2, uuidAt 109, 60000, "a", none⟩) ::
  .start (.placeBet ⟨uuidAt 2, uuidAt 109, 60000, "b", none⟩) :: turns 2 50 200 ++ turns 3 50 300

theorem runsFrom_funded_overspending :
    ((executed overspending).sessions.map fun t => t.program.result.any fun r => r.toOption.isSome) =
      [true, true, true, false] ∧
      Funding smallConfig plainCrypto (executed overspending) :=
  ⟨by decide +kernel, runsFrom_funded (migrated_consistent smallConfig)
    (reaches_executed overspending)⟩

end Tessera
