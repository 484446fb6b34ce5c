import Tessera.Books.System
import Tessera.Transactions.Waiting

/-!
# Where the money paths can block each other

The rows are locked in one order by everything but a bet that is placed: rounds, bets, escrow, and
then the house and the wallets.  A bet that is placed locks the wallet first and escrow after it.
That is the only way in which a cycle of waits can come about.

* `Call.level`, `levelOf` — the order of the waits;
* `Waits.of_round`, `Waits.of_wallet`, `Waits.of_bet`, `Waits.of_escrow` — what a session that holds
  a row can still wait for;
* `Crossing` — a payment that waits for a wallet, and a bet that holds it;
* `reachable_deadlock` — every cycle has one.

Source: `src/src/rounds/rounds.service.ts` `placeBet`, `cashOut`,
`src/src/rounds/round-engine.service.ts` `settleRound`, `voidRound`, `tickGame`,
`src/src/ledger/ledger.service.ts` `postInTransaction`.
-/

namespace Tessera

open Relational Transactions

/-- Among the money paths, one waits for a row that the other holds. -/
abbrev Blocks (w : System) (i j : ℕ) : Prop :=
  w.WaitsFor Call.isMoney LockKey.isRow i j

/-- The order in which the rows are waited for.  The wallet of a user who places a bet comes before
escrow, the wallet of a user who is paid after it. -/
def Call.level (c : Call) : LockKey → ℕ
  | .round _ => 0
  | .bet _ =>
    match c with
    | .settleRound _ | .voidRound _ | .tickGame _ => 3
    | _ => 2
  | .balance id =>
    if id = escrowId then 4 else if id = houseId then 5 else
      match c with
      | .placeBet _ => 1
      | _ => 5
  | _ => 6

/-- The level at which a session waits, beyond all levels if it does not wait for a row. -/
def levelOf (w : System) (i : ℕ) : ℕ :=
  match w.sessions[i]? with
  | none => 6
  | some t =>
    match t.program.wants with
    | none => 6
    | some h => if (h.1, .exclusive) ∈ t.standing.held then 6 else t.call.level h.1

/-- A transaction that holds escrow waits for the wallet of a user whom it pays.  The wallet is held
by a bet that this user is placing, which waits for escrow, or for the id that it is given. -/
structure Crossing (s : Db) (t u : Client) (input : PlaceBetInput) (wallet : Uuid) : Prop where
  owner : s.walletOf input.userId = some wallet
  paying : t.call.pays s input.userId
  escrow : (.balance escrowId, .exclusive) ∈ t.standing.held
  waits : ∃ mode, t.program.wants = some (.balance wallet, mode)
  placing : u.call = .placeBet input
  holds : ∃ mode, (.balance wallet, mode) ∈ u.standing.held
  next : ∃ h, u.program.wants = some h ∧ (h.1 = .balance escrowId ∨ ∃ id, h.1 = .bet id)

/-- The `i`-th session and the `j`-th one cross. -/
def Crosses (w : System) (i j : ℕ) : Prop :=
  ∃ t ∈ w.sessions[i]?, ∃ u ∈ w.sessions[j]?, ∃ input wallet, Crossing w.db t u input wallet

section
variable {c : Call} {f : Standing Db LockKey Write} {g : LockKey} {s : Db} {m : LockMode}
variable {id userId w : Uuid}

/-- A row has one of the six lower levels. -/
theorem Call.level_lt_of_row (h : g.isRow = true) : c.level g < 6 := by
  cases g with
  | round id => simp [Call.level]
  | bet id => cases c <;> simp [Call.level]
  | balance id =>
    simp only [Call.level]
    split
    · omega
    · split
      · omega
      · cases c <;> simp
  | _ => cases h

/-- A key has the highest level, at which nobody waits in a cycle. -/
theorem Call.level_of_not_row (h : g.isRow = false) : c.level g = 6 := by
  cases g with
  | round id => cases h
  | bet id => cases h
  | balance id => cases h
  | _ => rfl

/-- Escrow comes after the wallets of bets that are placed. -/
theorem level_escrow : c.level (.balance escrowId) = 4 := by simp [Call.level]

/-- The bets of a round that is being closed come after the bets of other calls. -/
theorem level_closing {roundId : Uuid} (h : c.Closes roundId) : c.level (.bet id) = 3 := by
  cases c with
  | settleRound _ | voidRound _ | tickGame _ => rfl
  | _ => cases h

/-- The house comes after escrow. -/
theorem level_house : c.level (.balance houseId) = 5 := by
  have hne : houseId ≠ escrowId := by decide
  simp [Call.level, hne]

/-- A user who is paid is paid after escrow. -/
theorem level_payee (hs : Housed s) (hw : s.walletOf userId = some w) (hpays : c.pays s userId) :
    c.level (.balance w) = 5 := by
  have hgt := hs.wallet_gt hw
  have hescrow : w ≠ escrowId := by
    rintro rfl
    exact absurd hgt (by decide)
  have hhouse : w ≠ houseId := by
    rintro rfl
    exact absurd hgt (by decide)
  cases c with
  | placeBet input => exact absurd hpays id
  | _ => simp [Call.level, hescrow, hhouse]

/-- The wallet of a bet that is placed comes first after the round. -/
theorem level_placing {input : PlaceBetInput} (hs : Housed s) (hw : s.walletOf userId = some w) :
    (Call.placeBet input).level (.balance w) = 1 := by
  have hgt := hs.wallet_gt hw
  have hescrow : w ≠ escrowId := by
    rintro rfl
    exact absurd hgt (by decide)
  have hhouse : w ≠ houseId := by
    rintro rfl
    exact absurd hgt (by decide)
  simp [Call.level, hescrow, hhouse]

/-! ## What a session that holds a row can still wait for -/

/-- A session that holds a round waits for something above it. -/
theorem Waits.of_round (h : Waits c f g s) (hs : Housed s) (hheld : (.round id, m) ∈ f.held) :
    0 < c.level g := by
  cases h with
  | round hrows => exact (hrows _ hheld rfl).elim
  | wallet hw _ => simp [level_placing hs hw]
  | fresh _ _ => simp [Call.level]
  | stake _ _ _ => simp [level_escrow]
  | cashOut _ _ => simp [Call.level]
  | bet hcloses _ _ _ _ => simp [level_closing hcloses]
  | escrow _ _ => simp [level_escrow]
  | house _ => simp [level_house]
  | payee _ hw hpays => simp [level_payee hs hw hpays]

/-- A session that holds a bet waits for something above it. -/
theorem Waits.of_bet (h : Waits c f g s) (hs : Housed s) (hheld : (.bet id, m) ∈ f.held) :
    2 < c.level g := by
  cases h with
  | round hrows => exact (hrows _ hheld rfl).elim
  | wallet _ hrows => cases hrows _ hheld rfl
  | fresh _ hrows => rcases hrows _ hheld rfl with hrow | hrow <;> cases hrow
  | stake _ _ _ => simp [level_escrow]
  | cashOut _ hrows => exact (hrows _ hheld rfl).elim
  | bet hcloses _ _ _ _ => simp [level_closing hcloses]
  | escrow _ _ => simp [level_escrow]
  | house _ => simp [level_house]
  | payee _ hw hpays => simp [level_payee hs hw hpays]

/-- A session that holds a bet and waits for another one is closing the round of both. -/
theorem Waits.of_bet_on (h : Waits c f g s) (hs : Housed s) {b : Bet} (hb : s.bet id = some b)
    (hheld : (.bet id, m) ∈ f.held) :
    3 < c.level g ∨ (.round b.roundId, .exclusive) ∈ f.held := by
  cases h with
  | round hrows => exact (hrows _ hheld rfl).elim
  | wallet _ hrows => cases hrows _ hheld rfl
  | fresh _ hrows => rcases hrows _ hheld rfl with hrow | hrow <;> cases hrow
  | stake _ _ _ => simp [level_escrow]
  | cashOut _ hrows => exact (hrows _ hheld rfl).elim
  | bet _ _ _ hround hrows =>
    rcases hrows _ hheld rfl with hrow | ⟨id', b', hid, hb', rfl⟩
    · cases hrow
    · injection hid with hid
      subst hid
      rw [hb] at hb'
      obtain rfl : b = b' := Option.some.inj hb'
      exact .inr hround
  | escrow _ _ => simp [level_escrow]
  | house _ => simp [level_house]
  | payee _ hw hpays => simp [level_payee hs hw hpays]

/-- A session that holds a wallet waits for something above the first wallets. -/
theorem Waits.of_wallet (h : Waits c f g s) (hs : Housed s) (hheld : (.balance w, m) ∈ f.held) :
    1 < c.level g := by
  cases h with
  | round hrows => exact (hrows _ hheld rfl).elim
  | wallet _ hrows => cases hrows _ hheld rfl
  | fresh _ _ => simp [Call.level]
  | stake _ _ _ => simp [level_escrow]
  | cashOut _ hrows => exact (hrows _ hheld rfl).elim
  | bet hcloses _ _ _ _ => simp [level_closing hcloses]
  | escrow _ _ => simp [level_escrow]
  | house _ => simp [level_house]
  | payee _ hw hpays => simp [level_payee hs hw hpays]

/-- A session that holds escrow waits for something above it. -/
theorem Waits.of_escrow (h : Waits c f g s) (hs : Housed s)
    (hheld : (.balance escrowId, m) ∈ f.held) : 4 < c.level g := by
  have hwallet : ∀ {userId w : Uuid}, s.walletOf userId = some w →
      LockKey.balance escrowId ≠ .balance w := by
    intro userId w hw heq
    injection heq with heq
    have hgt := hs.wallet_gt hw
    rw [← heq] at hgt
    exact absurd hgt (by decide)
  cases h with
  | round hrows => exact (hrows _ hheld rfl).elim
  | wallet _ hrows => cases hrows _ hheld rfl
  | fresh hw hrows =>
    rcases hrows _ hheld rfl with hrow | hrow
    · cases hrow
    · exact absurd hrow (hwallet hw)
  | stake hw _ hrows =>
    rcases hrows _ hheld rfl with hrow | hrow | hrow
    · cases hrow
    · exact absurd hrow (hwallet hw)
    · cases hrow
  | cashOut _ hrows => exact (hrows _ hheld rfl).elim
  | bet _ _ _ _ hrows => rcases hrows _ hheld rfl with hrow | ⟨_, _, hrow, _⟩ <;> cases hrow
  | escrow _ hrows => rcases hrows _ hheld rfl with ⟨_, hrow⟩ | ⟨_, hrow⟩ <;> cases hrow
  | house _ => simp [level_house]
  | payee _ hw hpays => simp [level_payee hs hw hpays]

/-- A session that waits for a wallet that it pays, while another one holds it: that one is placing a
bet, or it does not wait for a row. -/
theorem Waits.of_payee {c' : Call} {f' : Standing Db LockKey Write} {g' : LockKey}
    (hk : Keyed s) (hescrow : ∀ m, (.balance escrowId, m) ∉ f'.held)
    (hw : s.walletOf userId = some w) (hheld : (.balance w, m) ∈ f'.held)
    (h' : Waits c' f' g' s) :
    ∃ input : PlaceBetInput, input.userId = userId ∧ c' = .placeBet input ∧
      (g' = .balance escrowId ∨ ∃ id, g' = .bet id) := by
  have hsame : ∀ {input : PlaceBetInput} {w' : Uuid}, s.walletOf input.userId = some w' →
      LockKey.balance w = .balance w' → input.userId = userId := by
    intro input w' hw' heq
    injection heq with heq
    subst heq
    exact hk.wallet_injective hw' hw
  cases h' with
  | round hrows => exact (hrows _ hheld rfl).elim
  | wallet _ hrows => cases hrows _ hheld rfl
  | fresh hw' hrows =>
    rcases hrows _ hheld rfl with hrow | hrow
    · cases hrow
    · exact ⟨_, hsame hw' hrow, rfl, .inr ⟨_, rfl⟩⟩
  | stake hw' _ hrows =>
    rcases hrows _ hheld rfl with hrow | hrow | hrow
    · cases hrow
    · exact ⟨_, hsame hw' hrow, rfl, .inl rfl⟩
    · cases hrow
  | cashOut _ hrows => exact (hrows _ hheld rfl).elim
  | bet _ _ _ _ hrows => rcases hrows _ hheld rfl with hrow | ⟨_, _, hrow, _⟩ <;> cases hrow
  | escrow _ hrows => rcases hrows _ hheld rfl with ⟨_, hrow⟩ | ⟨_, hrow⟩ <;> cases hrow
  | house hheld' => exact absurd hheld' (hescrow _)
  | payee hheld' _ _ => exact absurd hheld' (hescrow _)

/-- Nobody but the holder of escrow holds the house and waits for a row. -/
theorem Waits.of_house (hs : Housed s) (hescrow : ∀ m, (.balance escrowId, m) ∉ f.held)
    (hheld : (.balance houseId, m) ∈ f.held) : ¬Waits c f g s := by
  have hwallet : ∀ {userId w : Uuid}, s.walletOf userId = some w →
      LockKey.balance houseId ≠ .balance w := by
    intro userId w hw heq
    injection heq with heq
    have hgt := hs.wallet_gt hw
    rw [← heq] at hgt
    exact absurd hgt (by decide)
  intro h
  cases h with
  | round hrows => exact hrows _ hheld rfl
  | wallet _ hrows => cases hrows _ hheld rfl
  | fresh hw hrows =>
    rcases hrows _ hheld rfl with hrow | hrow
    · cases hrow
    · exact hwallet hw hrow
  | stake hw _ hrows =>
    rcases hrows _ hheld rfl with hrow | hrow | hrow
    · cases hrow
    · exact hwallet hw hrow
    · cases hrow
  | cashOut _ hrows => exact hrows _ hheld rfl
  | bet _ _ _ _ hrows => rcases hrows _ hheld rfl with hrow | ⟨_, _, hrow, _⟩ <;> cases hrow
  | escrow _ hrows => rcases hrows _ hheld rfl with ⟨_, hrow⟩ | ⟨_, hrow⟩ <;> cases hrow
  | house hheld' => exact hescrow _ hheld'
  | payee hheld' _ _ => exact hescrow _ hheld'

/-- What a session waits for comes before what the session that holds it waits for, unless the two
cross. -/
theorem Waits.rises {c' : Call} {f' : Standing Db LockKey Write} {g' : LockKey} (hk : Keyed s)
    (hs : Housed s) (hapart : ∀ k m, (k, .exclusive) ∈ f.held → (k, m) ∉ f'.held)
    (h : Waits c f g s) (hheld : (g, m) ∈ f'.held) (h' : Waits c' f' g' s) :
    c.level g < c'.level g' ∨ ∃ (input : PlaceBetInput) (wallet : Uuid),
      s.walletOf input.userId = some wallet ∧ c.pays s input.userId ∧
      (.balance escrowId, .exclusive) ∈ f.held ∧ g = .balance wallet ∧ c' = .placeBet input ∧
      (g' = .balance escrowId ∨ ∃ id, g' = .bet id) := by
  cases h with
  | round _ => exact .inl (h'.of_round hs hheld)
  | wallet hw _ => exact .inl (by rw [level_placing hs hw]; exact h'.of_wallet hs hheld)
  | fresh _ _ => exact .inl (h'.of_bet hs hheld)
  | stake _ _ _ => exact .inl (by rw [level_escrow]; exact h'.of_escrow hs hheld)
  | cashOut _ _ => exact .inl (h'.of_bet hs hheld)
  | bet hcloses hb hround hexclusive _ =>
    refine .inl ?_
    rw [level_closing hcloses]
    refine (h'.of_bet_on hs hb hheld).resolve_right fun hround' => ?_
    rw [hround] at hround'
    exact hapart _ _ hexclusive hround'
  | escrow _ _ => exact .inl (by rw [level_escrow]; exact h'.of_escrow hs hheld)
  | house hexclusive =>
    exact absurd h' (Waits.of_house hs (fun m => hapart _ m hexclusive) hheld)
  | payee hexclusive hw hpays =>
    obtain ⟨input, rfl, hplacing, hnext⟩ :=
      h'.of_payee hk (fun m => hapart _ m hexclusive) hw hheld
    exact .inr ⟨input, _, hw, hpays, hexclusive, rfl, hplacing, hnext⟩

end

section
variable {config : Config} {crypto : Crypto} {w : System} {i j : ℕ} {t : Client}

/-- A session that waits for nothing is at the highest level. -/
theorem levelOf_none (ht : w.sessions[i]? = some t) (hwants : t.program.wants = none) :
    levelOf w i = 6 := by
  simp [levelOf, ht, hwants]

/-- A session is at the level of the row that it waits for, unless it holds it. -/
theorem levelOf_wants (ht : w.sessions[i]? = some t) {g : LockKey × LockMode}
    (hwants : t.program.wants = some g) :
    levelOf w i = if (g.1, .exclusive) ∈ t.standing.held then 6 else t.call.level g.1 := by
  simp only [levelOf, ht, hwants]

/-- A money path that waits for a row is at one of the places where it comes to wait, or it has
taken the row already. -/
theorem waits_of_wants (h : Reaches config crypto w) (ht : w.sessions[i]? = some t)
    (hmoney : t.call.isMoney = true) {g : LockKey × LockMode} (hwants : t.program.wants = some g)
    (hrow : g.1.isRow = true) :
    (g.1, .exclusive) ∈ t.standing.held ∨ Waits t.call t.standing g.1 w.db := by
  have hsound := reachable_sound h
  have hrely := Rely.refl (books_regular config) hsound.inv t.standing.held
  exact wp_guard (hsound.session ht).safe hrely hwants hmoney hrow

/-- A session that does not wait at one of these places is beyond all levels. -/
theorem level_or_waits (h : Reaches config crypto w) (ht : w.sessions[i]? = some t)
    (hmoney : t.call.isMoney = true) :
    levelOf w i = 6 ∨ ∃ g, t.program.wants = some g ∧ levelOf w i = t.call.level g.1 ∧
      Waits t.call t.standing g.1 w.db := by
  cases hwants : t.program.wants with
  | none => exact .inl (levelOf_none ht hwants)
  | some g =>
    have hlevel := levelOf_wants ht hwants
    by_cases hheld : (g.1, .exclusive) ∈ t.standing.held
    · exact .inl (hlevel.trans (if_pos hheld))
    · rw [if_neg hheld] at hlevel
      by_cases hrow : g.1.isRow = true
      · have hwaits := (waits_of_wants h ht hmoney hwants hrow).resolve_left hheld
        exact .inr ⟨g, rfl, hlevel, hwaits⟩
      · exact .inl (hlevel.trans (Call.level_of_not_row (by simpa using hrow)))

/-- A wait is for a row that comes before the one that the holder waits for, unless the two cross. -/
theorem Blocks.rises (h : Reaches config crypto w) (hblocks : Blocks w i j)
    (hcrosses : ¬Crosses w i j) : levelOf w i < levelOf w j := by
  have hsound := reachable_sound h
  obtain ⟨hij, t, ht, u, hu, hmoney, hmoney', g, hwants, hrow, ⟨k, m⟩, hheld, rfl, hconflict⟩ :=
    hblocks
  have hapart : ∀ k m, (k, .exclusive) ∈ t.standing.held → (k, m) ∉ u.standing.held := by
    intro k m hk hm
    have hfree := hsound.exclusive hij ht hu _ hk _ hm rfl
    simp at hfree
  have hnot : (g.1, .exclusive) ∉ t.standing.held := fun hg => hapart _ _ hg hheld
  have hwaits := (waits_of_wants h ht hmoney hwants hrow).resolve_left hnot
  have hlevel : levelOf w i = t.call.level g.1 := (levelOf_wants ht hwants).trans (if_neg hnot)
  rw [hlevel]
  rcases level_or_waits h hu hmoney' with hsix | ⟨g', hwants', hlevel', hwaits'⟩
  · rw [hsix]
    exact Call.level_lt_of_row hrow
  · rw [hlevel']
    refine (hwaits.rises hsound.inv.keyed hsound.inv.housed hapart hheld hwaits').resolve_right ?_
    rintro ⟨input, wallet, howner, hpays, hescrow, hg, hplacing, hnext⟩
    refine hcrosses ⟨t, ht, u, hu, input, wallet, ?_⟩
    exact
      { owner := howner
        paying := hpays
        escrow := hescrow
        waits := ⟨g.2, by rw [← hg]; exact hwants⟩
        placing := hplacing
        holds := ⟨m, by rw [← hg]; exact hheld⟩
        next := ⟨g', hwants', hnext⟩ }

/-- Whenever bets, cash-outs, settlements, refunds and ticks wait for each other in a cycle, one of
them pays a user who is placing a bet: it holds escrow and waits for the wallet, the bet holds the
wallet and waits for escrow, or for its own id. -/
theorem reachable_deadlock (h : Reaches config crypto w)
    (hcycle : Relation.TransGen (Blocks w) i i) :
    ∃ j k, Relation.ReflTransGen (Blocks w) i j ∧ Blocks w j k ∧ Crosses w j k ∧
      Relation.ReflTransGen (Blocks w) k i :=
  cycle_special (fun _ _ hblocks hcrosses => hblocks.rises h hcrosses) hcycle

end

/-- The round of a user's bet is voided while the user places another one. -/
def crossedPayment : List (Event Inputs Call) :=
  .start (.register ⟨"ann", "Ann", "secret"⟩) :: turns 0 50 0 ++
  .start (.openRoundIfDue .ROULETTE) :: turns 1 40 100 ++
  .start (.openRoundIfDue .CRASH) :: turns 2 40 200 ++
  .start (.placeBet ⟨uuidAt 2, uuidAt 204, 300, "a", none⟩) :: turns 3 50 300 ++
  -- up to the balance check, which has locked the wallet
  .start (.placeBet ⟨uuidAt 2, uuidAt 109, 1000, "b", some ⟨"RED", none⟩⟩) :: turns 4 6 400 ++
  .start (.voidRound (uuidAt 204)) :: turns 5 60 500 ++ turns 4 50 600

theorem crossedPayment_cycle : Relation.TransGen (Blocks (executed crossedPayment)) 4 4 :=
  .tail (.single (by decide +kernel : Blocks _ 4 5)) (by decide +kernel : Blocks _ 5 4)

theorem reachable_deadlock_crossedPayment :
    ∃ j k, Relation.ReflTransGen (Blocks (executed crossedPayment)) 4 j ∧
      Blocks (executed crossedPayment) j k ∧ Crosses (executed crossedPayment) j k ∧
      Relation.ReflTransGen (Blocks (executed crossedPayment)) k 4 :=
  reachable_deadlock (reaches_executed _) crossedPayment_cycle

end Tessera
