import Tessera.Books.Effect
import Tessera.Database.Regime

/-!
# Books that agree with the bets

The invariant of the committed state: the balances follow from the bets and the grants, and
the journal records each bet once when it is placed and once when it is closed.

* `Consistent` — the invariant, in five parts;
* `Consistent.after` — every enabled effect keeps it.
-/

namespace Tessera

open Relational Transactions

/-! ## What a bet contributes -/

/-- The part of a stake that is in escrow. -/
def Bet.held (b : Bet) : ℤ := if b.status = .ACTIVE then b.stakeMinor.minor else 0

/-- What has been paid out on a bet. -/
def Bet.paid (b : Bet) : ℤ := (b.payoutMinor.map Money.minor).getD 0

/-- What the house has made on a bet. -/
def Bet.kept (b : Bet) : ℤ := if b.status = .ACTIVE then 0 else b.stakeMinor.minor - b.paid

/-- What a user has made on a bet. -/
def Bet.gained (userId : Uuid) (b : Bet) : ℤ :=
  if b.userId = userId then b.paid - b.stakeMinor.minor else 0

/-- How many journal rows of each kind refer to a bet. -/
def Bet.expects (b : Bet) (kind : TransactionKind) : ℕ :=
  if kind = .BET_PLACED ∨ b.status.settlement = some kind then 1 else 0

/-- A sum over all bets. -/
def Db.total (s : Db) (g : Bet → ℤ) : ℤ := (s.bets.map g).sum

/-- The journal rows of a kind that refer to something. -/
def Db.journalled (s : Db) (kind : TransactionKind) (reference : Reference) : ℕ :=
  s.transactions.countP fun t => decide (t.kind = kind ∧ t.reference = some reference)

/-- The grants in the journal. -/
def Transaction.isGrant (t : Transaction) : Bool := t.kind == .SIGNUP_GRANT

/-! ## The invariant -/

/-- Rows are named by their keys, and each account has its balances row. -/
structure Keyed (s : Db) : Prop where
  users : (s.users.map User.id).Nodup
  accounts : (s.accounts.map Account.id).Nodup
  accountKeys : (s.accounts.map Account.key).Nodup
  bets : (s.bets.map Bet.id).Nodup
  balances : s.balances.map Balance.accountId = s.accounts.map Account.id

/-- The accounts are the three of the system and one wallet for each user. -/
structure Housed (s : Db) : Prop where
  system : migrated.accounts <+: s.accounts
  wallets : ∀ a ∈ s.accounts, a ∈ migrated.accounts ∨
    (3 < a.id ∧ a.kind = .WALLET ∧ ∃ u ∈ s.users, a.key = walletKey u.id)
  owners : ∀ u ∈ s.users, (s.walletOf u.id).isSome = true

/-- What is true of each bet. -/
structure Bet.Fits (s : Db) (b : Bet) : Prop where
  stake : 0 < b.stakeMinor.minor
  active : b.status = .ACTIVE → b.payoutMinor = none
  closed : b.status ≠ .ACTIVE → b.payoutMinor.isSome = true
  voided : b.status = .VOIDED → b.payoutMinor = some b.stakeMinor
  user : b.userId ∈ s.users.map User.id
  round : ∃ r, s.round b.roundId = some r ∧ (b.status = .ACTIVE → r.status.isOver = false)

/-- The balances follow from the bets and the grants. -/
structure Balanced (config : Config) (s : Db) : Prop where
  escrow : s.balanceOf escrowId = s.total Bet.held
  house : s.balanceOf houseId = s.total Bet.kept
  wallet : ∀ u ∈ s.users, ∀ w, s.walletOf u.id = some w →
    s.balanceOf w = config.signupGrantMinor + s.total (Bet.gained u.id)
  mint : s.balanceOf mintId = -(config.signupGrantMinor * s.users.length)

/-- The journal records each bet and each grant. -/
structure Journalled (config : Config) (s : Db) : Prop where
  bets : ∀ b ∈ s.bets, ∀ kind, s.journalled kind ⟨"bet", b.id⟩ = b.expects kind
  known : ∀ t ∈ s.transactions, ∀ id, t.reference = some ⟨"bet", id⟩ → id ∈ s.bets.map Bet.id
  grants : (s.transactions.filter Transaction.isGrant).map Transaction.reference =
    s.users.map fun u => some ⟨"user", u.id⟩
  legs : ∀ t ∈ s.transactions, t.isGrant = true →
    (s.postings t.id).map Entry.amount = [-config.signupGrantMinor, config.signupGrantMinor]
  entries : ∀ e ∈ s.entries, e.transactionId ∈ s.transactions.map Transaction.id

/-- The invariant of the committed state. -/
structure Consistent (config : Config) (s : Db) : Prop where
  keyed : Keyed s
  housed : Housed s
  fits : ∀ b ∈ s.bets, b.Fits s
  balanced : Balanced config s
  journalled : Journalled config s
  tidy : Tidy s

/-! ## Sums and lookups -/

/-- A bet that is found is in the table. -/
theorem Db.bet_mem {s : Db} {id : Uuid} {b : Bet} (h : s.bet id = some b) : b ∈ s.bets :=
  lookup_mem h

/-- A bet is found by its id. -/
theorem Db.bet_id {s : Db} {id : Uuid} {b : Bet} (h : s.bet id = some b) : b.id = id :=
  lookup_key h

/-- A new bet adds its share to a sum. -/
theorem Db.total_insert (s : Db) (b : Bet) (g : Bet → ℤ) :
    (s.apply (.insertBet b)).total g = s.total g + g b := by
  simp [Db.total, Db.apply]

/-- An update replaces the share of its bet in a sum. -/
theorem Db.total_update {s : Db} (hkeyed : Keyed s) {id : Uuid} {b : Bet}
    (h : s.bet id = some b) (u : BetUpdate) (g : Bet → ℤ) :
    (s.apply (.updateBet id u)).total g = s.total g - g b + g (u.row b) :=
  sum_modify hkeyed.bets h

/-- A sum of zeros. -/
theorem Db.total_eq_zero {s : Db} {g : Bet → ℤ} (h : ∀ b ∈ s.bets, g b = 0) : s.total g = 0 := by
  unfold Db.total
  refine List.sum_eq_zero fun x hx => ?_
  obtain ⟨b, hb, rfl⟩ := List.mem_map.1 hx
  exact h b hb

section
variable {config : Config} {s : Db}

/-- An account has a balances row. -/
theorem Keyed.row (h : Keyed s) {id : Uuid} {a : Account} (ha : s.account id = some a) :
    (s.balance id).isSome = true := by
  refine lookup_isSome.2 ?_
  rw [h.balances]
  exact List.mem_map.2 ⟨a, lookup_mem ha, lookup_key ha⟩

/-- The three accounts of the system are there. -/
theorem Housed.system_account (h : Housed s) :
    (s.account mintId).isSome = true ∧ (s.account escrowId).isSome = true ∧
      (s.account houseId).isSome = true := by
  obtain ⟨more, hmore⟩ := h.system
  unfold Db.account lookup
  rw [← hmore]
  exact ⟨rfl, rfl, rfl⟩

/-- The house may be overdrawn. -/
theorem Housed.house_kind (h : Housed s) {a : Account} (ha : s.account houseId = some a) :
    a.kind.neverNegative = false := by
  obtain ⟨more, hmore⟩ := h.system
  unfold Db.account at ha
  rw [← hmore] at ha
  cases ha
  rfl

/-- MINT may be overdrawn. -/
theorem Housed.mint_kind (h : Housed s) {a : Account} (ha : s.account mintId = some a) :
    a.kind.neverNegative = false := by
  obtain ⟨more, hmore⟩ := h.system
  unfold Db.account at ha
  rw [← hmore] at ha
  cases ha
  rfl

/-- The wallet of a user is the account with the key of a wallet. -/
theorem Db.walletOf_eq_some {userId w : Uuid} :
    s.walletOf userId = some w ↔
      ∃ a, s.accountByKey (walletKey userId) = some a ∧ a.id = w :=
  Option.map_eq_some_iff

/-- It is found by its id, too. -/
theorem Keyed.wallet_account (h : Keyed s) {userId : Uuid} {a : Account}
    (ha : s.accountByKey (walletKey userId) = some a) : s.account a.id = some a :=
  lookup_of_mem h.accounts (lookup_mem ha)

/-- A wallet is none of the accounts of the system. -/
theorem Housed.wallet_gt (h : Housed s) {userId w : Uuid} (hw : s.walletOf userId = some w) :
    3 < w := by
  obtain ⟨a, ha, rfl⟩ := Db.walletOf_eq_some.1 hw
  have hkey : a.key = walletKey userId := lookup_key ha
  rcases h.wallets a (lookup_mem ha) with hsys | ⟨hid, -⟩
  · exfalso
    simp only [migrated, List.mem_cons, List.not_mem_nil, or_false] at hsys
    rcases hsys with rfl | rfl | rfl <;> cases hkey
  · exact hid

/-- It is of kind WALLET. -/
theorem Housed.wallet_kind (h : Housed s) {userId : Uuid} {a : Account}
    (ha : s.accountByKey (walletKey userId) = some a) : a.kind = .WALLET := by
  have hkey : a.key = walletKey userId := lookup_key ha
  rcases h.wallets a (lookup_mem ha) with hsys | ⟨-, hkind, -⟩
  · exfalso
    simp only [migrated, List.mem_cons, List.not_mem_nil, or_false] at hsys
    rcases hsys with rfl | rfl | rfl <;> cases hkey
  · exact hkind

/-- Two users do not share a wallet. -/
theorem Keyed.wallet_injective (h : Keyed s) {userId userId' w : Uuid}
    (hw : s.walletOf userId = some w) (hw' : s.walletOf userId' = some w) : userId = userId' := by
  obtain ⟨a, ha, rfl⟩ := Db.walletOf_eq_some.1 hw
  obtain ⟨a', ha', hid⟩ := Db.walletOf_eq_some.1 hw'
  have heq : a' = a := eq_of_key h.accounts (lookup_mem ha') (lookup_mem ha) hid
  subst heq
  have hkey := (lookup_key ha).symm.trans (lookup_key ha')
  injection hkey

/-- The balances rows are there for the system and for every wallet. -/
theorem Keyed.wallet_row (h : Keyed s) {userId w : Uuid} (hw : s.walletOf userId = some w) :
    (s.balance w).isSome = true := by
  obtain ⟨a, ha, rfl⟩ := Db.walletOf_eq_some.1 hw
  exact h.row (h.wallet_account ha)

/-- The accounts of the system have their balances rows. -/
theorem Consistent.system_row (h : Consistent config s) :
    (s.balance mintId).isSome = true ∧ (s.balance escrowId).isSome = true ∧
      (s.balance houseId).isSome = true := by
  obtain ⟨h₁, h₂, h₃⟩ := h.housed.system_account
  obtain ⟨a₁, ha₁⟩ := Option.isSome_iff_exists.1 h₁
  obtain ⟨a₂, ha₂⟩ := Option.isSome_iff_exists.1 h₂
  obtain ⟨a₃, ha₃⟩ := Option.isSome_iff_exists.1 h₃
  exact ⟨h.keyed.row ha₁, h.keyed.row ha₂, h.keyed.row ha₃⟩

/-! ## A posting -/

/-- A posting moves each balance by its net amount. -/
theorem Db.posted_balanceOf {id : Uuid} (h : (s.balance id).isSome = true) (p : Posted) :
    (s.posted p).balanceOf id = s.balanceOf id + net p.postings id :=
  Db.balanceOf_credit h p.postings

/-- A posting adds no row with a key and no account. -/
theorem Keyed.posted (h : Keyed s) (p : Posted) : Keyed (s.posted p) where
  users := h.users
  accounts := h.accounts
  accountKeys := h.accountKeys
  bets := h.bets
  balances := by
    have hids : (s.posted p).balances.map Balance.accountId = s.balances.map Balance.accountId := by
      simp [Db.posted, Balance.add]
    exact hids.trans h.balances

/-- Entries that carry the id of a new journal row. -/
theorem Posted.Matches.entry {p : Posted} (h : p.Matches) {e : Entry} (he : e ∈ p.entries) :
    e.transactionId = p.transaction.id := by
  have hmem : (e.transactionId, e.accountId, e.amount) ∈
      p.entries.map (fun e => (e.transactionId, e.accountId, e.amount)) := List.mem_map_of_mem he
  rw [h] at hmem
  obtain ⟨q, -, hq⟩ := List.mem_map.1 hmem
  injection hq with hid
  exact hid.symm

/-- The entries of a posting have its amounts. -/
theorem Posted.Matches.amounts {p : Posted} (h : p.Matches) :
    p.entries.map Entry.amount = p.postings.map fun q => q.amount.minor := by
  have hmap := congrArg (List.map fun x : Uuid × Uuid × ℤ => x.2.2) h
  simpa [List.map_map, Function.comp_def] using hmap

/-- The new journal row is none of the old ones. -/
theorem Posted.New.fresh_ne {p : Posted} {kind : TransactionKind} {ref : Reference}
    (h : p.New s kind ref) {t : Transaction} (ht : t ∈ s.transactions) :
    t.id ≠ p.transaction.id := by
  intro heq
  have hany := h.fresh
  rw [List.any_eq_false] at hany
  exact hany t ht (by simpa using heq)

/-- The postings of an old journal row are what they were. -/
theorem Posted.New.postings_old {p : Posted} {kind : TransactionKind} {ref : Reference}
    (h : p.New s kind ref) {t : Transaction} (ht : t ∈ s.transactions) :
    (s.posted p).postings t.id = s.postings t.id := by
  have hnone : p.entries.filter (fun e => decide (e.transactionId = t.id)) = [] := by
    refine List.filter_eq_nil_iff.2 fun e he => ?_
    rw [h.matched.entry he]
    simpa using (h.fresh_ne ht).symm
  unfold Db.postings Db.posted
  rw [List.filter_append, hnone, List.append_nil]

/-- The postings of the new journal row are those it came with. -/
theorem Posted.New.postings_new {p : Posted} {kind : TransactionKind} {ref : Reference}
    (h : p.New s kind ref) (hentries : ∀ e ∈ s.entries, e.transactionId ∈ s.transactions.map
      Transaction.id) : (s.posted p).postings p.transaction.id = p.entries := by
  have hold : s.entries.filter (fun e => decide (e.transactionId = p.transaction.id)) = [] := by
    refine List.filter_eq_nil_iff.2 fun e he => ?_
    obtain ⟨t, ht, hid⟩ := List.mem_map.1 (hentries e he)
    rw [← hid]
    simpa using h.fresh_ne ht
  have hnew : p.entries.filter (fun e => decide (e.transactionId = p.transaction.id)) =
      p.entries := by
    refine List.filter_eq_self.2 fun e he => ?_
    simpa using h.matched.entry he
  unfold Db.postings Db.posted
  rw [List.filter_append, hold, hnew, List.nil_append]

/-- One more journal row counts for its own kind and reference only. -/
theorem Posted.New.journalled {p : Posted} {kind : TransactionKind} {ref : Reference}
    (h : p.New s kind ref) (kind' : TransactionKind) (ref' : Reference) :
    (s.posted p).journalled kind' ref' =
      s.journalled kind' ref' + if kind' = kind ∧ ref' = ref then 1 else 0 := by
  unfold Db.journalled Db.posted
  rw [List.countP_append, List.countP_singleton, h.kind, h.reference]
  refine congrArg _ (if_congr ?_ rfl rfl)
  rw [decide_eq_true_eq, Option.some.injEq]
  exact and_congr eq_comm eq_comm

/-- Every entry has its journal row, the new ones included. -/
theorem Posted.New.entries {p : Posted} {kind : TransactionKind} {ref : Reference}
    (h : p.New s kind ref) (hentries : ∀ e ∈ s.entries, e.transactionId ∈ s.transactions.map
      Transaction.id) : ∀ e ∈ (s.posted p).entries,
      e.transactionId ∈ (s.posted p).transactions.map Transaction.id := by
  intro e he
  rw [show (s.posted p).transactions = s.transactions ++ [p.transaction] from rfl,
    List.map_append, List.mem_append]
  rcases List.mem_append.1 he with he | he
  · exact .inl (hentries e he)
  · exact .inr (by simp [h.matched.entry he])

/-- Whether a journal row is new depends on the journal only. -/
theorem Posted.New.of_eq {s' : Db} {p : Posted} {kind : TransactionKind} {ref : Reference}
    (h : p.New s kind ref) (ht : s'.transactions = s.transactions) : p.New s' kind ref :=
  { h with fresh := by rw [ht]; exact h.fresh }

/-- Nothing but the rounds, the tokens, the chains and the notifications has changed. -/
structure SameBooks (s s' : Db) : Prop where
  users : s'.users = s.users
  accounts : s'.accounts = s.accounts
  balances : s'.balances = s.balances
  bets : s'.bets = s.bets
  transactions : s'.transactions = s.transactions
  entries : s'.entries = s.entries

/-- The books do not depend on the rounds, as long as those of active bets are not over. -/
theorem Consistent.sameBooks (h : Consistent config s) {s' : Db} (hs : SameBooks s s')
    (hround : ∀ b ∈ s.bets, ∃ r, s'.round b.roundId = some r ∧
      (b.status = .ACTIVE → r.status.isOver = false)) : Consistent config s' := by
  obtain ⟨users, accounts, transactions, entries, balances, rounds, bets, chains, tokens, n, m, d⟩ := s
  obtain ⟨users', accounts', transactions', entries', balances', rounds', bets', chains', tokens',
    n', m', d'⟩ := s'
  obtain ⟨h₁, h₂, h₃, h₄, h₅, h₆⟩ := hs
  simp only at h₁ h₂ h₃ h₄ h₅ h₆
  subst h₁ h₂ h₃ h₄ h₅ h₆
  exact
    { keyed := ⟨h.keyed.users, h.keyed.accounts, h.keyed.accountKeys, h.keyed.bets,
        h.keyed.balances⟩
      housed := ⟨h.housed.system, h.housed.wallets, h.housed.owners⟩
      fits := fun b hb =>
        ⟨(h.fits b hb).stake, (h.fits b hb).active, (h.fits b hb).closed, (h.fits b hb).voided,
          (h.fits b hb).user, hround b hb⟩
      balanced := ⟨h.balanced.escrow, h.balanced.house, h.balanced.wallet, h.balanced.mint⟩
      journalled := ⟨h.journalled.bets, h.journalled.known, h.journalled.grants,
        h.journalled.legs, h.journalled.entries⟩
      tidy := h.tidy.of_eq rfl rfl }

/-! ## Placing a bet -/

section
variable {b : Bet} {p : Posted}

/-- Posting for a bet keeps the grants as they are. -/
theorem Journalled.posted_grants (h : Journalled config s) {kind : TransactionKind}
    {ref : Reference} (hp : p.New s kind ref) (hkind : kind ≠ .SIGNUP_GRANT) :
    ((s.posted p).transactions.filter Transaction.isGrant).map Transaction.reference =
        s.users.map (fun u => some ⟨"user", u.id⟩) ∧
      ∀ t ∈ (s.posted p).transactions, t.isGrant = true →
        ((s.posted p).postings t.id).map Entry.amount =
          [-config.signupGrantMinor, config.signupGrantMinor] := by
  have hnot : p.transaction.isGrant = false := by
    simpa [Transaction.isGrant, hp.kind] using hkind
  refine ⟨?_, fun t ht hgrant => ?_⟩
  · change ((s.transactions ++ [p.transaction]).filter _).map _ = _
    rw [List.filter_append, List.filter_cons_of_neg (by simp [hnot]), List.filter_nil,
      List.append_nil]
    exact h.grants
  · rcases List.mem_append.1 ht with ht | ht
    · rw [hp.postings_old ht]
      exact h.legs t ht hgrant
    · rw [List.mem_singleton.1 ht, hnot] at hgrant
      cases hgrant

/-- A wallet is none of the accounts of the system. -/
theorem Places.wallet_ne (h : Consistent config s) {w : Uuid} {userId : Uuid}
    (hw : s.walletOf userId = some w) : w ≠ escrowId ∧ w ≠ houseId ∧ w ≠ mintId := by
  have hgt := h.housed.wallet_gt hw
  exact ⟨(Nat.lt_trans (by decide : escrowId < 3) hgt).ne', (hgt : houseId < w).ne',
    (Nat.lt_trans (by decide : mintId < 3) hgt).ne'⟩

/-- The new bet has an id of its own. -/
theorem Keyed.placed (h : Keyed s) (hb : Places b p s) :
    Keyed ((s.apply (.insertBet b)).posted p) := by
  have hkeyed : Keyed (s.apply (.insertBet b)) :=
    ⟨h.users, h.accounts, h.accountKeys, nodup_insert h.bets hb.id, h.balances⟩
  exact hkeyed.posted p

/-- The new bet fits its round, the others are as before. -/
theorem Bet.Fits.placed (h : ∀ c ∈ s.bets, c.Fits s) (hb : Places b p s) :
    ∀ c ∈ ((s.apply (.insertBet b)).posted p).bets, c.Fits ((s.apply (.insertBet b)).posted p) := by
  intro c hc
  rcases List.mem_append.1 hc with hc | hc
  · have hfits := h c hc
    exact ⟨hfits.stake, hfits.active, hfits.closed, hfits.voided, hfits.user, hfits.round⟩
  · rw [List.mem_singleton.1 hc]
    obtain ⟨r, hr, hopen⟩ := hb.round
    exact ⟨hb.stake, fun _ => hb.payout, fun hc => absurd hb.active hc,
      fun hv => absurd (hb.active.symm.trans hv) (by decide), lookup_isSome.1 hb.user, r, hr,
      fun _ => by rw [hopen]; rfl⟩

/-- The stake leaves the wallet for escrow, and the new bet is held. -/
theorem Balanced.placed (h : Consistent config s) (hb : Places b p s) :
    Balanced config ((s.apply (.insertBet b)).posted p) := by
  obtain ⟨w, hw, -, hmoves⟩ := hb.wallet
  obtain ⟨hwe, hwh, hwm⟩ := Places.wallet_ne h hw
  obtain ⟨hmint, hescrow, hhouse⟩ := h.system_row
  have hheld : b.held = b.stakeMinor.minor := if_pos hb.active
  have hkept : b.kept = 0 := if_pos hb.active
  have hpaid : b.paid = 0 := by simp [Bet.paid, hb.payout]
  have hbalance : ∀ {id}, (s.balance id).isSome = true →
      ((s.apply (.insertBet b)).posted p).balanceOf id = s.balanceOf id + net p.postings id :=
    fun hid => Db.posted_balanceOf hid p
  refine ⟨?_, ?_, ?_, ?_⟩
  · rw [hbalance hescrow, hmoves, if_pos rfl, if_neg (Ne.symm hwe), h.balanced.escrow]
    change _ = (s.apply (.insertBet b)).total Bet.held
    rw [Db.total_insert, hheld]
    ring
  · rw [hbalance hhouse, hmoves, if_neg (by decide), if_neg (Ne.symm hwh), h.balanced.house]
    change _ = (s.apply (.insertBet b)).total Bet.kept
    rw [Db.total_insert, hkept]
    ring
  · intro u hu w' hw'
    have hw'' : s.walletOf u.id = some w' := hw'
    have hne := (Places.wallet_ne h hw'').1
    rw [hbalance (h.keyed.wallet_row hw''), hmoves, if_neg hne, h.balanced.wallet u hu w' hw'']
    change _ = config.signupGrantMinor + (s.apply (.insertBet b)).total (Bet.gained u.id)
    rw [Db.total_insert]
    unfold Bet.gained
    by_cases hu' : b.userId = u.id
    · have hww : w' = w := by
        rw [← hu', hw] at hw''
        exact (Option.some.inj hw'').symm
      rw [if_pos hww, if_pos hu', hpaid]
      ring
    · have hww : w' ≠ w := fun heq => hu' (h.keyed.wallet_injective hw (heq ▸ hw''))
      rw [if_neg hww, if_neg hu']
      ring
  · rw [hbalance hmint, hmoves, if_neg (by decide), if_neg (Ne.symm hwm), h.balanced.mint]
    change _ = -(config.signupGrantMinor * (s.users.length : ℤ))
    ring

/-- The new journal row is the only one of the new bet. -/
theorem Journalled.placed (h : Journalled config s) (hb : Places b p s) :
    Journalled config ((s.apply (.insertBet b)).posted p) := by
  have hnew : b.id ∉ s.bets.map Bet.id := fun hmem => by
    obtain ⟨c, hc, hid⟩ := List.mem_map.1 hmem
    exact lookup_eq_none.1 hb.id c hc hid
  have hposted : p.New (s.apply (.insertBet b)) .BET_PLACED ⟨"bet", b.id⟩ := hb.posted.of_eq rfl
  have hgrants := h.posted_grants hb.posted (by decide)
  refine ⟨?_, ?_, hgrants.1, hgrants.2, hposted.entries h.entries⟩
  · intro c hc kind
    rw [hposted.journalled]
    rcases List.mem_append.1 hc with hc | hc
    · have hne : c.id ≠ b.id := fun heq => hnew (heq ▸ List.mem_map_of_mem hc)
      rw [if_neg (by simp [hne])]
      exact h.bets c hc kind
    · rw [List.mem_singleton.1 hc]
      have hnone : (s.apply (.insertBet b)).journalled kind ⟨"bet", b.id⟩ = 0 := by
        refine List.countP_eq_zero.2 fun t ht hcond => hnew ?_
        rw [decide_eq_true_eq] at hcond
        exact h.known t ht b.id hcond.2
      rw [hnone, Bet.expects, hb.active]
      simp [BetStatus.settlement]
  · intro t ht id href
    change id ∈ (s.bets ++ [b]).map Bet.id
    rw [List.map_append, List.mem_append]
    rcases List.mem_append.1 ht with ht | ht
    · exact .inl (h.known t ht id href)
    · rw [List.mem_singleton.1 ht, hb.posted.reference] at href
      injection href with href
      injection href with _ hid
      exact .inr (by simp [hid])

/-- Only the wallet that pays loses anything, and it has the funds. -/
theorem Tidy.placed (h : Consistent config s) (hb : Places b p s) :
    Tidy ((s.apply (.insertBet b)).posted p) := by
  obtain ⟨w, hw, hfunds, hmoves⟩ := hb.wallet
  have hwe := (Places.wallet_ne h hw).1
  have hstake := hb.stake
  intro id a ha hkind
  have ha' : s.account id = some a := ha
  have hbalance : ((s.apply (.insertBet b)).posted p).balanceOf id =
      s.balanceOf id + net p.postings id := Db.posted_balanceOf (h.keyed.row ha') p
  rw [hbalance, hmoves]
  have hold := h.tidy id a ha' hkind
  by_cases hid : id = w
  · subst hid
    rw [if_neg hwe, if_pos rfl]
    omega
  · rw [if_neg hid]
    split <;> omega

/-- Placing a bet keeps the books consistent. -/
theorem Consistent.place (h : Consistent config s) (hb : Places b p s) :
    Consistent config ((s.apply (.insertBet b)).posted p) where
  keyed := h.keyed.placed hb
  housed := ⟨h.housed.system, h.housed.wallets, h.housed.owners⟩
  fits := Bet.Fits.placed h.fits hb
  balanced := Balanced.placed h hb
  journalled := h.journalled.placed hb
  tidy := Tidy.placed h hb

/-! ## Closing a bet -/

/-- An active bet has not been settled. -/
theorem BetStatus.settlement_active {status : BetStatus} {kind : TransactionKind}
    (h : status.settlement = some kind) : status ≠ .ACTIVE := by
  rintro rfl
  cases h

/-- A settlement is neither a grant nor the placing of a bet. -/
theorem BetStatus.settlement_kind {status : BetStatus} {kind : TransactionKind}
    (h : status.settlement = some kind) : kind ≠ .SIGNUP_GRANT ∧ kind ≠ .BET_PLACED := by
  cases status <;> cases h <;> decide

/-- The stake of an active bet is part of what escrow holds. -/
theorem Consistent.stake_le_escrow (h : Consistent config s) {id : Uuid} (hb : s.bet id = some b)
    (hactive : b.status = .ACTIVE) : b.stakeMinor.minor ≤ s.balanceOf escrowId := by
  have hheld : b.held = b.stakeMinor.minor := if_pos hactive
  rw [h.balanced.escrow, ← hheld]
  refine List.single_le_sum (fun x hx => ?_) _ (List.mem_map_of_mem (Db.bet_mem hb))
  obtain ⟨c, hc, rfl⟩ := List.mem_map.1 hx
  unfold Bet.held
  split
  · exact (h.fits c hc).stake.le
  · exact le_rfl

/-- The rows of the bets after one of them has changed. -/
theorem Keyed.updated_bet (h : Keyed s) {id : Uuid} (hb : s.bet id = some b) {u : BetUpdate}
    {c : Bet} (hc : c ∈ (s.apply (.updateBet id u)).bets) :
    c = u.row b ∨ (c ∈ s.bets ∧ c.id ≠ id) := by
  obtain ⟨c', hc', hcase⟩ := mem_modify hc
  rcases hcase with ⟨hid, rfl⟩ | ⟨hid, rfl⟩
  · refine .inl (congrArg u.row ?_)
    exact eq_of_key h.bets hc' (Db.bet_mem hb) (hid.trans (Db.bet_id hb).symm)
  · exact .inr ⟨hc', hid⟩

/-- Closing a bet keeps its id. -/
theorem Keyed.closed (h : Keyed s) (id : Uuid) (u : BetUpdate) (p : Posted) :
    Keyed ((s.apply (.updateBet id u)).posted p) := by
  have hids : (s.apply (.updateBet id u)).bets.map Bet.id = s.bets.map Bet.id :=
    map_key_modify (BetUpdate.row_id u)
  have hkeyed : Keyed (s.apply (.updateBet id u)) :=
    ⟨h.users, h.accounts, h.accountKeys, hids ▸ h.bets, h.balances⟩
  exact hkeyed.posted p

/-- A bet that is closed is not active any more. -/
theorem Closes.not_active {id : Uuid} {u : BetUpdate} (hc : Closes id u p s) :
    u.status ≠ .ACTIVE := by
  obtain ⟨kind, hkind, -⟩ := hc.posted
  exact BetStatus.settlement_active hkind

/-- The closed bet has its payout, the others are as before. -/
theorem Bet.Fits.close (h : Consistent config s) {id : Uuid} {u : BetUpdate}
    (hc : Closes id u p s) : ∀ c ∈ ((s.apply (.updateBet id u)).posted p).bets,
      c.Fits ((s.apply (.updateBet id u)).posted p) := by
  obtain ⟨b, hb, -⟩ := hc.bet
  have hfits := h.fits b (Db.bet_mem hb)
  have hclosed := hc.not_active
  intro c hmem
  rcases h.keyed.updated_bet hb hmem with rfl | ⟨hc', -⟩
  · obtain ⟨r, hr, -⟩ := hfits.round
    exact ⟨hfits.stake, fun ha => absurd ha hclosed, fun _ => rfl,
      fun hv => congrArg some (hc.refund hv b hb), hfits.user, r, hr,
      fun ha => absurd ha hclosed⟩
  · have hfits' := h.fits c hc'
    exact ⟨hfits'.stake, hfits'.active, hfits'.closed, hfits'.voided, hfits'.user, hfits'.round⟩

/-- The stake leaves escrow for the wallet and the house. -/
theorem Balanced.closed (h : Consistent config s) {id : Uuid} {u : BetUpdate}
    (hc : Closes id u p s) : Balanced config ((s.apply (.updateBet id u)).posted p) := by
  obtain ⟨b, hb, hactive, w, hw, hmoves⟩ := hc.bet
  obtain ⟨hwe, hwh, hwm⟩ := Places.wallet_ne h hw
  obtain ⟨hmint, hescrow, hhouse⟩ := h.system_row
  have hheld : b.held = b.stakeMinor.minor := if_pos hactive
  have hkept : b.kept = 0 := if_pos hactive
  have hpaid : b.paid = 0 := by simp [Bet.paid, (h.fits b (Db.bet_mem hb)).active hactive]
  have hheld' : (u.row b).held = 0 := if_neg hc.not_active
  have hpaid' : (u.row b).paid = u.payoutMinor.minor := rfl
  have hkept' : (u.row b).kept = b.stakeMinor.minor - u.payoutMinor.minor := if_neg hc.not_active
  have hbalance : ∀ {id'}, (s.balance id').isSome = true →
      ((s.apply (.updateBet id u)).posted p).balanceOf id' =
        s.balanceOf id' + net p.postings id' := fun hid => Db.posted_balanceOf hid p
  refine ⟨?_, ?_, ?_, ?_⟩
  · rw [hbalance hescrow, hmoves, if_neg (Ne.symm hwe), if_pos rfl, if_neg (by decide),
      h.balanced.escrow]
    change _ = (s.apply (.updateBet id u)).total Bet.held
    rw [Db.total_update h.keyed hb, hheld, hheld']
    ring
  · rw [hbalance hhouse, hmoves, if_neg (Ne.symm hwh), if_neg (by decide), if_pos rfl,
      h.balanced.house]
    change _ = (s.apply (.updateBet id u)).total Bet.kept
    rw [Db.total_update h.keyed hb, hkept, hkept']
    ring
  · intro v hv w' hw'
    have hw'' : s.walletOf v.id = some w' := hw'
    obtain ⟨hne, hne', -⟩ := Places.wallet_ne h hw''
    rw [hbalance (h.keyed.wallet_row hw''), hmoves, if_neg hne, if_neg hne',
      h.balanced.wallet v hv w' hw'']
    change _ = config.signupGrantMinor + (s.apply (.updateBet id u)).total (Bet.gained v.id)
    rw [Db.total_update h.keyed hb]
    have huser : (u.row b).userId = b.userId := rfl
    have hstake : (u.row b).stakeMinor = b.stakeMinor := rfl
    unfold Bet.gained
    rw [huser, hstake, hpaid, hpaid']
    by_cases hv' : b.userId = v.id
    · have hww : w' = w := by
        rw [← hv', hw] at hw''
        exact (Option.some.inj hw'').symm
      rw [if_pos hww, if_pos hv', if_pos hv']
      ring
    · have hww : w' ≠ w := fun heq => hv' (h.keyed.wallet_injective hw (heq ▸ hw''))
      rw [if_neg hww, if_neg hv', if_neg hv']
      ring
  · rw [hbalance hmint, hmoves, if_neg (Ne.symm hwm), if_neg (by decide), if_neg (by decide),
      h.balanced.mint]
    change _ = -(config.signupGrantMinor * (s.users.length : ℤ))
    ring

/-- The new journal row is the one that the new status of the bet asks for. -/
theorem Journalled.closed (h : Consistent config s) {id : Uuid} {u : BetUpdate}
    (hc : Closes id u p s) : Journalled config ((s.apply (.updateBet id u)).posted p) := by
  obtain ⟨b, hb, hactive, -⟩ := hc.bet
  obtain ⟨kind, hkind, hnew⟩ := hc.posted
  obtain ⟨hgrant, hplaced⟩ := BetStatus.settlement_kind hkind
  have hbid : b.id = id := Db.bet_id hb
  have hposted : p.New (s.apply (.updateBet id u)) kind ⟨"bet", id⟩ := hnew.of_eq rfl
  have hgrants := h.journalled.posted_grants hnew hgrant
  refine ⟨?_, ?_, hgrants.1, hgrants.2, hposted.entries h.journalled.entries⟩
  · intro c hmem kind'
    rw [hposted.journalled]
    rcases h.keyed.updated_bet hb hmem with rfl | ⟨hc', hne⟩
    · have hold := h.journalled.bets b (Db.bet_mem hb) kind'
      change s.journalled kind' ⟨"bet", b.id⟩ + _ = _
      have hstatus : (u.row b).status.settlement = some kind := hkind
      rw [hold, BetUpdate.row_id, hbid, Bet.expects, Bet.expects, hactive, hstatus]
      by_cases hk : kind' = kind
      · simp [hk, hplaced, BetStatus.settlement]
      · simp [hk, Ne.symm hk, BetStatus.settlement]
    · rw [if_neg (by simp [hne])]
      exact h.journalled.bets c hc' kind'
  · intro t ht id' href
    change id' ∈ (s.apply (.updateBet id u)).bets.map Bet.id
    rw [show (s.apply (.updateBet id u)).bets.map Bet.id = s.bets.map Bet.id from
      map_key_modify (BetUpdate.row_id u)]
    rcases List.mem_append.1 ht with ht | ht
    · exact h.journalled.known t ht id' href
    · rw [List.mem_singleton.1 ht, hnew.reference] at href
      injection href with href
      injection href with _ hid
      rw [← hid, ← hbid]
      exact List.mem_map_of_mem (Db.bet_mem hb)

/-- Only escrow and the house lose anything, and escrow holds the stake. -/
theorem Tidy.closed (h : Consistent config s) {id : Uuid} {u : BetUpdate}
    (hc : Closes id u p s) : Tidy ((s.apply (.updateBet id u)).posted p) := by
  obtain ⟨b, hb, hactive, w, hw, hmoves⟩ := hc.bet
  have hwe := (Places.wallet_ne h hw).1
  have hpayout := hc.payout
  intro id' a ha hkind'
  have ha' : s.account id' = some a := ha
  have hbalance : ((s.apply (.updateBet id u)).posted p).balanceOf id' =
      s.balanceOf id' + net p.postings id' := Db.posted_balanceOf (h.keyed.row ha') p
  rw [hbalance, hmoves]
  have hold := h.tidy id' a ha' hkind'
  by_cases hid : id' = escrowId
  · have hle := h.stake_le_escrow hb hactive
    rw [hid, if_neg (Ne.symm hwe), if_pos rfl, if_neg (by decide)]
    omega
  · have hhouse' : id' ≠ houseId := by
      rintro rfl
      exact Bool.false_ne_true ((h.housed.house_kind ha').symm.trans hkind')
    rw [if_neg hid, if_neg hhouse']
    split <;> omega

/-- Closing a bet keeps the books consistent. -/
theorem Consistent.close (h : Consistent config s) {id : Uuid} {u : BetUpdate}
    (hc : Closes id u p s) : Consistent config ((s.apply (.updateBet id u)).posted p) where
  keyed := h.keyed.closed id u p
  housed := ⟨h.housed.system, h.housed.wallets, h.housed.owners⟩
  fits := Bet.Fits.close h hc
  balanced := Balanced.closed h hc
  journalled := Journalled.closed h hc
  tidy := Tidy.closed h hc

/-! ## Enrolling a user -/

section
variable {u : User} {a : Account}

/-- The new user and the new wallet have ids and keys of their own. -/
theorem Keyed.enrolled (h : Keyed s) (he : Enrolls config u a p s) :
    Keyed (((s.apply (.insertUser u)).apply (.insertAccount a)).posted p) := by
  have hbalances : (s.balances ++ [(⟨a.id, 0⟩ : Balance)]).map Balance.accountId =
      (s.accounts ++ [a]).map Account.id := by
    rw [List.map_append, List.map_append, h.balances]
    rfl
  have hkeyed : Keyed ((s.apply (.insertUser u)).apply (.insertAccount a)) :=
    ⟨nodup_insert h.users he.user, nodup_insert h.accounts he.account,
      nodup_insert h.accountKeys he.key, h.bets, hbalances⟩
  exact hkeyed.posted p

/-- The new account is the wallet of the new user. -/
theorem Housed.enrolled (h : Housed s) (hid : 3 < a.id) (he : Enrolls config u a p s) :
    Housed (((s.apply (.insertUser u)).apply (.insertAccount a)).posted p) := by
  obtain ⟨hkind, hkey⟩ := he.wallet
  refine ⟨h.system.trans (List.prefix_append s.accounts [a]), ?_, ?_⟩
  · intro c hc
    rcases List.mem_append.1 hc with hc | hc
    · rcases h.wallets c hc with hsys | ⟨hcid, hckind, v, hv, hvkey⟩
      · exact .inl hsys
      · exact .inr ⟨hcid, hckind, v, List.mem_append_left _ hv, hvkey⟩
    · rw [List.mem_singleton.1 hc]
      exact .inr ⟨hid, hkind, u, List.mem_append_right _ List.mem_cons_self, hkey⟩
  · intro v hv
    rcases List.mem_append.1 hv with hv | hv
    · obtain ⟨w, hw⟩ := Option.isSome_iff_exists.1 (h.owners v hv)
      obtain ⟨c, hc, -⟩ := Db.walletOf_eq_some.1 hw
      exact Option.isSome_iff_exists.2
        ⟨c.id, Db.walletOf_eq_some.2 ⟨c, lookup_append_of_some hc _, rfl⟩⟩
    · rw [List.mem_singleton.1 hv]
      refine Option.isSome_iff_exists.2 ⟨a.id, Db.walletOf_eq_some.2 ⟨a, ?_, rfl⟩⟩
      rw [← hkey]
      exact lookup_append_new he.key

/-- The new wallet is none of the accounts of the system. -/
theorem Enrolls.wallet_ne (hid : 3 < a.id) : a.id ≠ escrowId ∧ a.id ≠ houseId ∧ a.id ≠ mintId :=
  ⟨(Nat.lt_trans (by decide : escrowId < 3) hid).ne', (hid : houseId < a.id).ne',
    (Nat.lt_trans (by decide : mintId < 3) hid).ne'⟩

/-- A user that had a wallet keeps it; the new one belongs to the new user. -/
theorem Enrolls.walletOf (he : Enrolls config u a p s) {userId w : Uuid}
    (hw : (((s.apply (.insertUser u)).apply (.insertAccount a)).posted p).walletOf userId =
      some w) : s.walletOf userId = some w ∨ (userId = u.id ∧ w = a.id) := by
  obtain ⟨a', ha', rfl⟩ := Db.walletOf_eq_some.1 hw
  rcases lookup_append_cases ha' with hs | ⟨-, rfl, hk⟩
  · exact .inl (Db.walletOf_eq_some.2 ⟨a', hs, rfl⟩)
  · rw [he.wallet.2] at hk
    injection hk with hk
    exact .inr ⟨hk.symm, rfl⟩

/-- An old balance moves by its share of the grant. -/
theorem Enrolls.balanceOf {id : Uuid} (hsome : (s.balance id).isSome = true) :
    (((s.apply (.insertUser u)).apply (.insertAccount a)).posted p).balanceOf id =
      s.balanceOf id + net p.postings id := by
  have hrow : ((s.apply (.insertUser u)).apply (.insertAccount a)).balance id = s.balance id := by
    obtain ⟨r, hr⟩ := Option.isSome_iff_exists.1 hsome
    rw [hr]
    exact lookup_append_of_some hr _
  rw [Db.posted_balanceOf (by rw [hrow]; exact hsome)]
  unfold Db.balanceOf
  rw [hrow]

/-- The new wallet holds the grant. -/
theorem Enrolls.balanceOf_new (h : Keyed s) (hid : 3 < a.id) (he : Enrolls config u a p s) :
    (((s.apply (.insertUser u)).apply (.insertAccount a)).posted p).balanceOf a.id =
      config.signupGrantMinor := by
  have hnone : s.balance a.id = none := by
    rw [← Option.not_isSome_iff_eq_none]
    intro hsome
    have hmem := lookup_isSome.1 hsome
    rw [h.balances] at hmem
    have hacc := lookup_isSome.2 hmem
    have hnew := he.account
    unfold Db.account at hnew
    rw [hnew] at hacc
    cases hacc
  have hrow : ((s.apply (.insertUser u)).apply (.insertAccount a)).balance a.id =
      some ⟨a.id, 0⟩ := lookup_append_new (a := (⟨a.id, 0⟩ : Balance)) hnone
  rw [Db.posted_balanceOf (by rw [hrow]; rfl), he.moves, if_pos rfl,
    if_neg (Enrolls.wallet_ne hid).2.2]
  simp [Db.balanceOf, hrow]

/-- The grant goes from MINT to the new wallet; no bet is of the new user. -/
theorem Balanced.enrolled (h : Consistent config s) (hid : 3 < a.id)
    (he : Enrolls config u a p s) :
    Balanced config (((s.apply (.insertUser u)).apply (.insertAccount a)).posted p) := by
  obtain ⟨hmint, hescrow, hhouse⟩ := h.system_row
  obtain ⟨hae, hah, ham⟩ := Enrolls.wallet_ne hid
  have huser : ∀ v ∈ s.users, v.id ≠ u.id := lookup_eq_none.1 he.user
  have hgained : s.total (Bet.gained u.id) = 0 := Db.total_eq_zero fun b hb => if_neg fun heq => by
    obtain ⟨v, hv, hvid⟩ := List.mem_map.1 (h.fits b hb).user
    exact huser v hv (hvid.trans heq)
  refine ⟨?_, ?_, ?_, ?_⟩
  · rw [Enrolls.balanceOf hescrow, he.moves, if_neg (Ne.symm hae), if_neg (by decide),
      h.balanced.escrow]
    change _ = s.total Bet.held
    ring
  · rw [Enrolls.balanceOf hhouse, he.moves, if_neg (Ne.symm hah), if_neg (by decide),
      h.balanced.house]
    change _ = s.total Bet.kept
    ring
  · intro v hv w hw
    change _ = config.signupGrantMinor + s.total (Bet.gained v.id)
    rcases he.walletOf hw with hs | ⟨hvu, rfl⟩
    · obtain ⟨hwe, hwh, hwm⟩ := Places.wallet_ne h hs
      obtain ⟨c, hc, hcid⟩ := Db.walletOf_eq_some.1 hs
      have hv' : v ∈ s.users := by
        rcases List.mem_append.1 hv with hv | hv
        · exact hv
        · exfalso
          rw [List.mem_singleton.1 hv, ← he.wallet.2, he.key] at hc
          cases hc
      have hwa : w ≠ a.id := by
        rintro rfl
        exact lookup_eq_none.1 he.account c (lookup_mem hc) hcid
      rw [Enrolls.balanceOf (h.keyed.wallet_row hs), he.moves, if_neg hwa, if_neg hwm,
        h.balanced.wallet v hv' w hs]
      ring
    · rw [Enrolls.balanceOf_new h.keyed hid he, hvu, hgained]
      ring
  · rw [Enrolls.balanceOf hmint, he.moves, if_neg (Ne.symm ham), if_pos rfl, h.balanced.mint]
    change _ = -(config.signupGrantMinor * ((s.users ++ [u]).length : ℤ))
    rw [List.length_append, List.length_singleton]
    push_cast
    ring

/-- The new journal row is the grant of the new user. -/
theorem Journalled.enrolled (h : Journalled config s) (he : Enrolls config u a p s) :
    Journalled config (((s.apply (.insertUser u)).apply (.insertAccount a)).posted p) := by
  have hposted : p.New ((s.apply (.insertUser u)).apply (.insertAccount a)) .SIGNUP_GRANT
      ⟨"user", u.id⟩ := he.posted.of_eq rfl
  have hgrant : p.transaction.isGrant = true := by simp [Transaction.isGrant, he.posted.kind]
  refine ⟨?_, ?_, ?_, ?_, hposted.entries h.entries⟩
  · intro b hb kind
    rw [hposted.journalled, if_neg (by simp)]
    exact h.bets b hb kind
  · intro q hq id href
    rcases List.mem_append.1 hq with hq | hq
    · exact h.known q hq id href
    · rw [List.mem_singleton.1 hq, he.posted.reference] at href
      simp at href
  · change ((s.transactions ++ [p.transaction]).filter _).map _ = (s.users ++ [u]).map _
    rw [List.filter_append, List.map_append, h.grants, List.filter_cons_of_pos hgrant,
      List.map_append]
    simp [he.posted.reference]
  · intro q hq hqgrant
    rcases List.mem_append.1 hq with hq | hq
    · rw [hposted.postings_old (s := (s.apply (.insertUser u)).apply (.insertAccount a)) hq]
      exact h.legs q hq hqgrant
    · rw [List.mem_singleton.1 hq, hposted.postings_new h.entries, hposted.matched.amounts,
        he.legs]

/-- Only MINT loses anything. -/
theorem Tidy.enrolled (h : Consistent config s) (hid : 3 < a.id) (he : Enrolls config u a p s) :
    Tidy (((s.apply (.insertUser u)).apply (.insertAccount a)).posted p) := by
  have hgrantPos := config.signupGrant_pos
  intro id c hc hckind
  rcases lookup_append_cases hc with hs | ⟨-, rfl, hcid⟩
  · have hmintKind : id ≠ mintId := by
      rintro rfl
      exact Bool.false_ne_true ((h.housed.mint_kind hs).symm.trans hckind)
    rw [Enrolls.balanceOf (h.keyed.row hs), he.moves, if_neg hmintKind]
    have hpos := h.tidy id c hs hckind
    split <;> omega
  · rw [← hcid, Enrolls.balanceOf_new h.keyed hid he]
    exact hgrantPos.le

/-- Enrolling a user keeps the books consistent. -/
theorem Consistent.enroll (h : Consistent config s) (hid : 3 < a.id)
    (he : Enrolls config u a p s) :
    Consistent config (((s.apply (.insertUser u)).apply (.insertAccount a)).posted p) where
  keyed := h.keyed.enrolled he
  housed := h.housed.enrolled hid he
  fits := fun b hb => by
    have hfits := h.fits b hb
    refine ⟨hfits.stake, hfits.active, hfits.closed, hfits.voided, ?_, hfits.round⟩
    change b.userId ∈ (s.users ++ [u]).map User.id
    rw [List.map_append]
    exact List.mem_append_left _ hfits.user
  balanced := Balanced.enrolled h hid he
  journalled := h.journalled.enrolled he
  tidy := Tidy.enrolled h hid he

end

end

/-! ## Every effect -/

/-- Every enabled effect keeps the books consistent. -/
theorem Consistent.after (h : Consistent config s) {e : Effect} (he : e.Enabled config s) :
    Consistent config (e.after s) := by
  cases e with
  | enroll u a p =>
    have hafter : Effect.after (.enroll u a p) s =
        ((s.apply (.insertUser u)).apply (.insertAccount a)).posted p := applyAll_posted _ p
    rw [hafter]
    exact h.enroll he.1 he.2
  | place b p =>
    have hafter : Effect.after (.place b p) s = (s.apply (.insertBet b)).posted p :=
      applyAll_posted _ p
    rw [hafter]
    exact h.place he
  | close id u p =>
    have hafter : Effect.after (.close id u p) s = (s.apply (.updateBet id u)).posted p :=
      applyAll_posted _ p
    rw [hafter]
    exact h.close he
  | advance id u =>
    refine h.sameBooks ⟨rfl, rfl, rfl, rfl, rfl, rfl⟩ fun b hb => ?_
    obtain ⟨r, hr, hover⟩ := (h.fits b hb).round
    have hround := s.round_update id b.roundId u
    by_cases hid : b.roundId = id
    · rw [if_pos hid] at hround
      refine ⟨u.row r, hround.trans (congrArg (Option.map u.row) hr), fun hactive => ?_⟩
      change u.status.isOver = false
      by_contra hends
      exact he.ends (by simpa using hends) b hb hid hactive
    · rw [if_neg hid] at hround
      exact ⟨r, hround.trans hr, hover⟩
  | launch r =>
    refine h.sameBooks ⟨rfl, rfl, rfl, rfl, rfl, rfl⟩ fun b hb => ?_
    obtain ⟨r', hr', hover⟩ := (h.fits b hb).round
    exact ⟨r', lookup_append_of_some hr' _, hover⟩
  | aside w =>
    have hw : w.isAside = true := he
    cases w <;> first
      | exact absurd hw Bool.false_ne_true
      | exact h.sameBooks ⟨rfl, rfl, rfl, rfl, rfl, rfl⟩ fun b hb => (h.fits b hb).round

end

end Tessera
