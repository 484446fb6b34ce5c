import Tessera.Books.Reconciliation
import Tessera.Rounds.CashOuts

/-!
# The operator's overview

What the operator is shown, each figure read off one committed state, and how the figures of the
live rounds compare with the books.

* `getOverview` — the overview, with all its figures;
* `Overview.Agrees` — the exposure is that of the live rounds, and of the resolved ones;
* `reachable_exposure` — it is, unless a bet on a live round has been closed.

Source: `admin.service.ts` `getOverview`, `counts`, `liveRounds`, `recentRounds`;
`ledger.service.ts` `getCreditsInCirculation`, `getGlobalSum`, `findBalanceDrift`.
-/

namespace Tessera

open Relational Transactions

/-! ## The queries -/

/-- The money of an account.  Source: `LedgerService.getBalance`. -/
def Db.getBalance (s : Db) (accountId : Uuid) : Except AppError Money :=
  readBigint (s.balanceOf accountId)

/-- What the entries on an account add up to. -/
def Db.computed (s : Db) (accountId : Uuid) : ℤ :=
  ((s.entries.filter fun e => e.accountId == accountId).map Entry.amount).sum

/-- Source: `LedgerService.getGlobalSum`. -/
def Db.getGlobalSum (s : Db) : ℤ := Js.roundToDouble (s.entries.map Entry.amount).sum

/-- Source: `LedgerService.findBalanceDrift`. -/
def Db.findBalanceDrift (s : Db) : List Account :=
  s.accounts.filter fun a => s.balanceOf a.id != s.computed a.id

/-- Source: `getOverview`, the member `ledger`. -/
structure LedgerFigures where
  creditsInCirculation : String
  creditsInCirculationMinor : ℤ
  housePnl : String
  housePnlMinor : ℤ
  exposure : String
  exposureMinor : ℤ
  globalPostingSum : ℤ
  driftingAccounts : ℕ
  healthy : Bool

/-- Source: `counts`. -/
structure Counts where
  users : ℕ
  rounds : ℕ
  bets : ℕ
  postings : ℕ

/-- Source: `liveRounds`, a row. -/
structure LiveRound where
  id : Uuid
  game : GameKind
  status : RoundStatus
  nonce : ℕ
  bets : ℕ
  stakedMinor : ℤ
  staked : String
  locksAt : Time

/-- Source: `recentRounds`, a row. -/
structure RecentRound where
  id : Uuid
  game : GameKind
  status : RoundStatus
  nonce : ℕ
  crashPointBp : Option ℤ
  winningPocket : Option ℤ
  settledAt : Option Time

/-- Source: `getOverview`, its answer. -/
structure Overview where
  ledger : LedgerFigures
  counts : Counts
  liveRounds : List LiveRound
  recentRounds : List RecentRound

/-- A row of `liveRounds`: the round joined to its bets, whatever their status. -/
def AdminService.liveRow (s : Db) (round : Round) : Except AppError LiveRound := do
  let bets := s.bets.filter fun b => b.roundId == round.id
  let stakedMinor := Js.roundToDouble (bets.map fun b => b.stakeMinor.minor).sum
  let staked ← Money.fromMinor stakedMinor
  pure
    { id := round.id
      game := round.game
      status := round.status
      nonce := round.nonce
      bets := bets.length
      stakedMinor := stakedMinor
      staked := staked.format
      locksAt := round.locksAt }

/-- Source: `liveRounds`. -/
def AdminService.liveRounds (s : Db) : Except AppError (List LiveRound) :=
  (s.rounds.filter fun r => r.status.isLive).mapM (AdminService.liveRow s)

/-- Source: `recentRounds`. -/
def AdminService.recentRounds (s : Db) (limit : ℕ) : List RecentRound :=
  let ended := s.rounds.filter fun r =>
    r.status == .RESOLVED || r.status == .SETTLED || r.status == .VOIDED
  ((ended.insertionSort fun a b => b.nonce ≤ a.nonce).take limit).map fun r =>
    ⟨r.id, r.game, r.status, r.nonce, r.crashPointBp, r.winningPocket, r.settledAt⟩

/-- Source: `counts`. -/
def AdminService.counts (s : Db) : Counts :=
  ⟨s.users.length, s.rounds.length, s.bets.length, s.entries.length⟩

/-- Source: `AdminService.getOverview`, all its queries on one committed state. -/
def getOverview (s : Db) : Except AppError Overview := do
  let mint ← s.getBalance mintId
  let circulation := mint.negate
  let house ← s.getBalance houseId
  let escrow ← s.getBalance escrowId
  let globalSum := s.getGlobalSum
  let drift := s.findBalanceDrift
  let liveRounds ← AdminService.liveRounds s
  pure
    { ledger :=
        { creditsInCirculation := circulation.format
          creditsInCirculationMinor := circulation.minor
          housePnl := house.format
          housePnlMinor := house.minor
          exposure := escrow.format
          exposureMinor := escrow.minor
          globalPostingSum := globalSum
          driftingAccounts := drift.length
          healthy := globalSum == 0 && drift.length == 0 }
      counts := AdminService.counts s
      liveRounds := liveRounds
      recentRounds := AdminService.recentRounds s 8 }

/-! ## Reading the figures back -/

/-- A figure that can be read is read as it is. -/
theorem readBigint_ok {value : ℤ} {m : Money} (h : readBigint value = .ok m) : m.minor = value := by
  unfold readBigint at h
  split at h
  · cases h
    rfl
  · cases h

/-- What passes as a safe integer after rounding had not been rounded. -/
theorem roundToDouble_safe {n : ℤ} (h : Js.isSafeInteger (Js.roundToDouble n) = true) :
    Js.roundToDouble n = n := by
  refine (Js.representable_of_le (not_lt.1 fun hlarge => ?_)).roundToDouble_eq
  have hround := Js.le_natAbs_roundToDouble hlarge
  have hmax : Js.maxSafeInteger = 2 ^ 53 - 1 := rfl
  rw [Js.isSafeInteger_iff] at h
  omega

/-- A computation that succeeds has succeeded in each part. -/
theorem Except.bind_ok {ε α β : Type} {x : Except ε α} {f : α → Except ε β} {b : β}
    (h : (x >>= f) = .ok b) : ∃ a, x = .ok a ∧ f a = .ok b := by
  cases x with
  | error e => cases h
  | ok a => exact ⟨a, rfl, h⟩

/-- A row whose figures could be read: the stakes of all bets on the round. -/
theorem AdminService.liveRow_ok {s : Db} {round : Round} {live : LiveRound}
    (h : AdminService.liveRow s round = .ok live) :
    live.id = round.id ∧ live.stakedMinor = s.stakes fun b => b.roundId = round.id := by
  unfold AdminService.liveRow at h
  dsimp only at h
  obtain ⟨staked, hstaked, hlive⟩ := Except.bind_ok h
  cases hlive
  refine ⟨rfl, ?_⟩
  have hsafe : Js.isSafeInteger (Js.roundToDouble
      ((s.bets.filter fun b => b.roundId == round.id).map fun b => b.stakeMinor.minor).sum) =
        true := by
    rw [← Money.fromMinor_ok hstaked]
    exact staked.safe
  exact roundToDouble_safe hsafe

/-- So has one over a list. -/
theorem mapM_ok {ε α β : Type} {f : α → Except ε β} {l : List α} : ∀ {l' : List β},
    l.mapM f = .ok l' → List.Forall₂ (fun a b => f a = .ok b) l l' := by
  induction l with
  | nil =>
    intro l' h
    cases h
    exact .nil
  | cons a l ih =>
    intro l' h
    rw [List.mapM_cons] at h
    obtain ⟨b, hb, h⟩ := Except.bind_ok h
    obtain ⟨bs, hbs, h⟩ := Except.bind_ok h
    cases h
    exact .cons hb (ih hbs)

/-- A result comes from one of the elements. -/
theorem mem_of_forall₂ {α β : Type} {R : α → β → Prop} {l : List α} {l' : List β}
    (h : List.Forall₂ R l l') {b : β} (hb : b ∈ l') : ∃ a ∈ l, R a b := by
  induction h with
  | nil => exact absurd hb List.not_mem_nil
  | @cons a b' l l' hrow _ ih =>
    rcases List.mem_cons.1 hb with rfl | hb
    · exact ⟨a, List.mem_cons_self, hrow⟩
    · obtain ⟨a', ha', hrow'⟩ := ih hb
      exact ⟨a', List.mem_cons_of_mem a ha', hrow'⟩

/-- The figures of the live rounds together. -/
theorem sum_staked {s : Db} {rounds : List Round} {rows : List LiveRound}
    (h : List.Forall₂ (fun r live => AdminService.liveRow s r = .ok live) rounds rows) :
    (rows.map LiveRound.stakedMinor).sum =
      (rounds.map fun r => s.stakes fun b => b.roundId = r.id).sum := by
  induction h with
  | nil => rfl
  | cons hrow _ ih => rw [List.map_cons, List.sum_cons, List.map_cons, List.sum_cons, ih,
      (AdminService.liveRow_ok hrow).2]

/-! ## The stakes of the live rounds -/

/-- The status of the round that a bet was placed on. -/
def Db.roundStatus (s : Db) (b : Bet) : Option RoundStatus := (s.round b.roundId).map Round.status

/-- The bet was placed on a round that is live. -/
def Db.onLive (s : Db) (b : Bet) : Bool := (s.roundStatus b).any RoundStatus.isLive

/-- A sum over rounds of sums over bets. -/
theorem sum_total (s : Db) (rounds : List Round) (f : Round → Bet → ℤ) :
    (rounds.map fun r => s.total (f r)).sum = s.total fun b => (rounds.map fun r => f r b).sum := by
  induction rounds with
  | nil => exact (Db.total_eq_zero fun _ _ => rfl).symm
  | cons r rounds ih =>
    simp only [List.map_cons, List.sum_cons]
    rw [ih, Db.total_add]

/-- Of the rounds that pass a test at most one has a given id. -/
theorem sum_byId {rounds : List Round} (hids : (rounds.map Round.id).Nodup) (p : Round → Bool)
    (id : Uuid) (amount : ℤ) :
    ((rounds.filter p).map fun r => if id = r.id then amount else 0).sum =
      if (lookup Round.id rounds id).any p then amount else 0 := by
  induction rounds with
  | nil => rfl
  | cons r rounds ih =>
    rw [List.map_cons, List.nodup_cons] at hids
    obtain ⟨hnew, hids⟩ := hids
    by_cases hid : id = r.id
    · subst hid
      have hrest : ((rounds.filter p).map fun r' => if r.id = r'.id then amount else 0).sum = 0 := by
        refine List.sum_eq_zero fun x hx => ?_
        obtain ⟨r', hr', rfl⟩ := List.mem_map.1 hx
        refine if_neg fun hsame => hnew ?_
        rw [hsame]
        exact List.mem_map_of_mem (List.mem_filter.1 hr').1
      have hfound : lookup Round.id (r :: rounds) r.id = some r := by
        unfold lookup
        rw [List.find?_cons_of_pos (by simp)]
      rw [hfound]
      by_cases hp : p r
      · rw [List.filter_cons_of_pos hp, List.map_cons, List.sum_cons, hrest, if_pos rfl, add_zero]
        simp [hp]
      · rw [List.filter_cons_of_neg hp, hrest]
        simp [hp]
    · have hskip : lookup Round.id (r :: rounds) id = lookup Round.id rounds id := by
        unfold lookup
        rw [List.find?_cons_of_neg (by simpa using Ne.symm hid)]
      rw [hskip, ← ih hids]
      by_cases hp : p r
      · rw [List.filter_cons_of_pos hp, List.map_cons, List.sum_cons, if_neg hid, zero_add]
      · rw [List.filter_cons_of_neg hp]

section
variable {config : Config} {crypto : Crypto} {s : Db}

/-- What the overview reports for the live rounds: the stakes of all bets on them. -/
theorem sum_liveRounds (hids : (s.rounds.map Round.id).Nodup) {rows : List LiveRound}
    (h : AdminService.liveRounds s = .ok rows) :
    (rows.map LiveRound.stakedMinor).sum = s.stakes fun b => s.onLive b = true := by
  have hstakes : ∀ r : Round, (s.stakes fun b => b.roundId = r.id) =
      s.total fun b => if b.roundId = r.id then b.stakeMinor.minor else 0 :=
    fun r => Db.stakes_eq_total s _
  rw [sum_staked (mapM_ok h), Db.stakes_eq_total]
  simp only [hstakes]
  rw [sum_total]
  refine Db.total_congr fun b _ => ?_
  rw [sum_byId hids]
  unfold Db.onLive Db.roundStatus Db.round
  rw [Option.any_map]

/-- Escrow holds the active bets of the live rounds and of the resolved ones. -/
theorem Consistent.escrow_live (h : Consistent config s) :
    s.balanceOf escrowId = s.stakes (fun b => s.onLive b = true ∧ b.status = .ACTIVE) +
      s.stakes fun b => s.roundStatus b = some .RESOLVED ∧ b.status = .ACTIVE := by
  rw [h.balanced.escrow, Db.stakes_eq_total, Db.stakes_eq_total, ← Db.total_add]
  refine Db.total_congr fun b hb => ?_
  obtain ⟨r, hr, hopen⟩ := (h.fits b hb).round
  unfold Bet.held Db.onLive Db.roundStatus
  rw [hr]
  by_cases hactive : b.status = .ACTIVE
  · have hover := hopen hactive
    cases hstatus : r.status <;> simp_all [RoundStatus.isLive, RoundStatus.isOver]
  · simp [hactive]

/-- The stakes of the bets on live rounds that are closed. -/
theorem stakes_onLive (s : Db) :
    (s.stakes fun b => s.onLive b = true) = s.stakes (fun b => s.onLive b = true ∧ b.status = .ACTIVE) +
      s.stakes fun b => s.onLive b = true ∧ b.status ≠ .ACTIVE := by
  rw [Db.stakes_eq_total, Db.stakes_eq_total, Db.stakes_eq_total, ← Db.total_add]
  refine Db.total_congr fun b _ => ?_
  by_cases hlive : s.onLive b = true
  · by_cases hactive : b.status = .ACTIVE <;> simp [hlive, hactive]
  · simp [hlive]

/-- Stakes are positive: they add up to nothing only when there are none. -/
theorem Consistent.stakes_eq_zero (h : Consistent config s) (p : Bet → Prop) [DecidablePred p] :
    s.stakes p = 0 ↔ ∀ b ∈ s.bets, ¬p b := by
  rw [Db.stakes_eq_total]
  constructor
  · intro hzero b hb hp
    have hnonneg : ∀ x ∈ s.bets.map (fun b => if p b then b.stakeMinor.minor else 0), 0 ≤ x := by
      intro x hx
      obtain ⟨c, hc, rfl⟩ := List.mem_map.1 hx
      have hstake := (h.fits c hc).stake
      split <;> omega
    have hstake := (h.fits b hb).stake
    have hle := List.single_le_sum hnonneg _ (List.mem_map_of_mem hb)
    unfold Db.total at hzero
    rw [hzero] at hle
    simp only [hp, if_true] at hle
    omega
  · intro hnone
    exact Db.total_eq_zero fun b hb => if_neg (hnone b hb)

end

/-! ## The exposure -/

/-- The figures agree with the books: the exposure is that of the live rounds and of the resolved
ones, and each live round is reported with its share. -/
structure Overview.Agrees (o : Overview) (s : Db) : Prop where
  exposure : o.ledger.exposureMinor = (o.liveRounds.map LiveRound.stakedMinor).sum +
    s.stakes fun b => s.roundStatus b = some .RESOLVED ∧ b.status = .ACTIVE
  share : ∀ live ∈ o.liveRounds, live.stakedMinor =
    s.stakes fun b => b.roundId = live.id ∧ b.status = .ACTIVE

section
variable {config : Config} {crypto : Crypto} {s : Db}

/-- The figures of an overview. -/
theorem getOverview_ok {o : Overview} (h : getOverview s = .ok o) :
    o.ledger.exposureMinor = s.balanceOf escrowId ∧ AdminService.liveRounds s = .ok o.liveRounds := by
  unfold getOverview at h
  obtain ⟨mint, hmint, h⟩ := Except.bind_ok h
  obtain ⟨house, hhouse, h⟩ := Except.bind_ok h
  obtain ⟨escrow, hescrow, h⟩ := Except.bind_ok h
  obtain ⟨rows, hrows, h⟩ := Except.bind_ok h
  cases h
  exact ⟨readBigint_ok hescrow, hrows⟩

/-- In every committed state the figures agree with the books, just when no bet on a live round
is closed. -/
theorem reachable_exposure {w : System} (h : Reaches config crypto w) {o : Overview}
    (ho : getOverview w.db = .ok o) : o.Agrees w.db ↔
      ∀ b ∈ w.db.bets, ∀ r, w.db.round b.roundId = some r → r.status.isLive = true →
        b.status = .ACTIVE := by
  have hbooks := reachable_consistent h
  have hids := (reaches_lifecycle h).ids
  obtain ⟨hexposure, hrows⟩ := getOverview_ok ho
  have hsum := sum_liveRounds hids hrows
  have hsplit := stakes_onLive w.db
  constructor
  · rintro ⟨hagrees, -⟩ b hb r hr hlive
    rw [hexposure, hbooks.escrow_live, hsum] at hagrees
    have hzero : (w.db.stakes fun b => w.db.onLive b = true ∧ b.status ≠ .ACTIVE) = 0 := by
      omega
    by_contra hclosed
    refine (hbooks.stakes_eq_zero _).1 hzero b hb ⟨?_, hclosed⟩
    unfold Db.onLive Db.roundStatus
    rw [hr]
    exact hlive
  · intro hactive
    have honly : ∀ b ∈ w.db.bets, w.db.onLive b = true → b.status = .ACTIVE := by
      intro b hb hlive
      obtain ⟨r, hr, -⟩ := (hbooks.fits b hb).round
      unfold Db.onLive Db.roundStatus at hlive
      rw [hr] at hlive
      exact hactive b hb r hr hlive
    have hzero : (w.db.stakes fun b => w.db.onLive b = true ∧ b.status ≠ .ACTIVE) = 0 :=
      (hbooks.stakes_eq_zero _).2 fun b hb hclosed => hclosed.2 (honly b hb hclosed.1)
    constructor
    · rw [hexposure, hbooks.escrow_live, hsum]
      omega
    · intro live hlive
      obtain ⟨r, hr, hrow⟩ := mem_of_forall₂ (mapM_ok hrows) hlive
      obtain ⟨hid, hstaked⟩ := AdminService.liveRow_ok hrow
      obtain ⟨hmem, hstatus⟩ := List.mem_filter.1 hr
      have hfound : w.db.round r.id = some r := lookup_of_mem hids hmem
      rw [hstaked, hid, Db.stakes_eq_total, Db.stakes_eq_total]
      refine Db.total_congr fun b hb => ?_
      by_cases hround : b.roundId = r.id
      · have hb' := hactive b hb r (hround ▸ hfound) hstatus
        simp [hround, hb']
      · simp [hround]

end

/-- The events of the crash game up to its bet. -/
def stakedGame : List (Event Inputs Call) := crashGame.take 143

theorem reachable_exposure_stakedGame : ∃ o, getOverview (executed stakedGame).db = .ok o ∧
    o.ledger.exposureMinor = 300 ∧ o.Agrees (executed stakedGame).db := by
  have hoverview : (getOverview (executed stakedGame).db).map
      (fun o => o.ledger.exposureMinor) = .ok 300 := by decide +kernel
  have hactive : ∀ b ∈ (executed stakedGame).db.bets, b.status = .ACTIVE := by decide +kernel
  cases ho : getOverview (executed stakedGame).db with
  | error e =>
    rw [ho] at hoverview
    cases hoverview
  | ok o =>
    rw [ho] at hoverview
    injection hoverview with hexposure
    exact ⟨o, rfl, hexposure, (reachable_exposure (reaches_executed stakedGame) ho).2
      fun b hb _ _ _ => hactive b hb⟩

/-- The bet is cashed out while the round is running: nothing is left in escrow, and the round is
still reported with its stake. -/
theorem exposure_crashGame : Reaches smallConfig plainCrypto (executed crashGame) ∧
    ∃ o, getOverview (executed crashGame).db = .ok o ∧ o.ledger.exposureMinor = 0 ∧
      (o.liveRounds.map fun live => (live.id, live.status, live.stakedMinor)) =
        [(uuidAt 109, .RUNNING, 300)] ∧ ¬o.Agrees (executed crashGame).db := by
  refine ⟨reaches_executed crashGame, ?_⟩
  have hoverview : (getOverview (executed crashGame).db).map (fun o => (o.ledger.exposureMinor,
      o.liveRounds.map fun live => (live.id, live.status, live.stakedMinor))) =
        .ok (0, [(uuidAt 109, .RUNNING, 300)]) := by decide +kernel
  cases ho : getOverview (executed crashGame).db with
  | error e =>
    rw [ho] at hoverview
    cases hoverview
  | ok o =>
    rw [ho] at hoverview
    injection hoverview with hfigures
    injection hfigures with hexposure hlive
    refine ⟨o, rfl, hexposure, hlive, fun hagrees => ?_⟩
    have hstaked : o.liveRounds.map LiveRound.stakedMinor = [300] := by
      have hthird := congrArg (List.map fun row => row.2.2) hlive
      rwa [List.map_map] at hthird
    have hresolved : ((executed crashGame).db.stakes fun b =>
        (executed crashGame).db.roundStatus b = some .RESOLVED ∧ b.status = .ACTIVE) = 0 := by
      decide +kernel
    have hfalse := hagrees.exposure
    rw [hexposure, hstaked, hresolved] at hfalse
    cases hfalse

end Tessera
