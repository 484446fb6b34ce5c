import Tessera.Rounds.Announced
import Tessera.Transactions.Vigil

/-!
# The last balance a player is told

A settlement reads the balance that it announces without a lock on the wallet.  It holds escrow at
that time, and so does every other transaction that moves the balance of a wallet: what was read
stays true until it is committed.

* `Write.moves`, `lastTold` — what a write does to the balances, and what a user was told of his;
* `Calm` — what the lock on escrow keeps still;
* `Abreast` — what was told agrees with what was moved, of everybody but the user at hand;
* `UpToDate` — what every user was last told is his balance;
* `wp_tell_abreast`, `call_tracks` — the rule for the announcement, and every call;
* `reachable_upToDate` — every run.

Source: `src/src/rounds/round-engine.service.ts` `publishBetOutcome`, `settleLostBet`,
`src/src/rounds/rounds.service.ts` `placeBet`, `cashOut`.
-/

namespace Tessera

open Relational Transactions Transactions.Program

/-- By how much a write changes each balance. -/
def Write.moves : Write → Uuid → ℤ
  | .addBalance id amount => Pi.single id amount
  | _ => 0

/-- The balance that an event tells a user. -/
def RoundDomainEvent.balanceFor (userId : Uuid) : RoundDomainEvent → Option ℤ
  | .walletUpdated userId' balanceMinor => if userId' = userId then some balanceMinor else none
  | _ => none

/-- The balance that a user was last told. -/
def lastTold (events : List RoundDomainEvent) (userId : Uuid) : Option ℤ :=
  (events.filterMap (RoundDomainEvent.balanceFor userId)).getLast?

/-- What every user was last told is the balance of his wallet. -/
def UpToDate (s : Db) : Prop :=
  ∀ userId n, lastTold s.delivered userId = some n →
    ∃ w, s.walletOf userId = some w ∧ s.balanceOf w = n

/-- The lock on escrow keeps the wallets that there are still. -/
def Calm (k : LockKey) (m : LockMode) (s s' : Db) : Prop :=
  k = .balance escrowId → m = .exclusive → ∀ userId w, s.walletOf userId = some w →
    s'.walletOf userId = some w ∧ s'.balanceOf w = s.balanceOf w

/-- What was told agrees with what was moved, and whatever was moved besides escrow and the house
was told.  All that may be late is what one user is to be told. -/
structure Abreast (late : Option Uuid) (s : Db) (rows : List Write) : Prop where
  told : ∀ userId n, lastTold (announcements rows) userId = some n → late ≠ some userId →
    ∃ w, s.walletOf userId = some w ∧ n = s.balanceOf w + tally Write.moves rows w
  moved : ∀ id, tally Write.moves rows id ≠ 0 → id = escrowId ∨ id = houseId ∨
    ∃ userId, s.walletOf userId = some id ∧
      (late = some userId ∨ (lastTold (announcements rows) userId).isSome = true)
  accounts : ∀ w ∈ rows, w.table ≠ .accounts

/-- What is committed is told of where it is moved, or it concerns neither bets nor listeners. -/
def Tracks (s : Db) (rows : List Write) : Prop :=
  Abreast none s rows ∨ ∀ w ∈ rows, w.table ≠ .bets ∧ w.table ≠ .notifications

/-- The terms of a call. -/
abbrev trackedTerms : Terms Db LockKey Write := .committing Tracks

/-- A write that moves no balance and tells nobody of his. -/
structure Unmoved (w : Write) : Prop where
  accounts : w.table ≠ .accounts
  ledger : w.table ≠ .ledger
  mute : ∀ userId n, w ≠ .notify (.walletUpdated userId n)

/-- A write to another table moves no balance and announces none. -/
theorem unmoved_of_table {w : Write} (haccounts : w.table ≠ .accounts) (hledger : w.table ≠ .ledger)
    (hnotify : w.table ≠ .notifications) : Unmoved w := by
  refine ⟨haccounts, hledger, fun userId n heq => hnotify ?_⟩
  rw [heq]
  rfl

/-- Chains, rounds and tokens are such tables. -/
theorem unmoved_aside {w : Write} (h : w.table ∈ [Table.chains, Table.rounds, Table.tokens]) :
    Unmoved w :=
  unmoved_of_table (tables_ne h (by simp)) (tables_ne h (by simp)) (tables_ne h (by simp))

/-- So is a notification that is not about a wallet. -/
theorem unmoved_notify {e : RoundDomainEvent} (h : ∀ userId n, e ≠ .walletUpdated userId n) :
    Unmoved (.notify e) := by
  refine ⟨by simp [Write.table], by simp [Write.table], fun userId n heq => h userId n ?_⟩
  injection heq

/-- A part that touches neither accounts, nor the ledger, nor the channel. -/
theorem Touches.unmoved {α : Type} {tables : List Table} {p : Action α} (h : Touches tables p)
    (haccounts : .accounts ∉ tables) (hledger : .ledger ∉ tables)
    (hnotify : .notifications ∉ tables) : p.Within Unmoved fun w => w.isDraw = true :=
  Within.mono (fun _ hw => unmoved_of_table (tables_ne hw haccounts) (tables_ne hw hledger)
    (tables_ne hw hnotify)) h

section
variable {w : Write} {s s' : Db} {rows rows' : List Write} {id : Uuid} {config : Config}

/-! ## Balances and announcements -/

/-- Only the ledger moves balances. -/
theorem Write.moves_eq_zero (h : w.table ≠ .ledger) : w.moves = 0 := by
  cases w with
  | addBalance id amount => exact absurd rfl h
  | _ => rfl

/-- Writes that do not move an account add up to nothing. -/
theorem tally_moves_eq_zero (h : ∀ w ∈ rows, w.moves id = 0) : tally Write.moves rows id = 0 := by
  induction rows with
  | nil => rfl
  | cons w rows ih =>
    obtain ⟨hw, hrest⟩ := List.forall_mem_cons.1 h
    have htally : tally Write.moves (w :: rows) = w.moves + tally Write.moves rows := by simp [tally]
    rw [htally, Pi.add_apply, hw, ih hrest, add_zero]

/-- The balance of an account that is there follows what is moved. -/
theorem balanceOf_applyAll (h : (s.balance id).isSome = true) :
    (database.applyAll s rows).balanceOf id = s.balanceOf id + tally Write.moves rows id := by
  induction rows generalizing s with
  | nil => exact (add_zero _).symm
  | cons w rows ih =>
    have htally : tally Write.moves (w :: rows) = w.moves + tally Write.moves rows := by simp [tally]
    obtain ⟨b, hb⟩ := Option.isSome_iff_exists.1 h
    have hstep : (s.apply w).balance id = some (b.add (w.moves id)) := by
      have hidle : (s.apply w).balances = s.balances → w.moves = 0 →
          (s.apply w).balance id = some (b.add (w.moves id)) := by
        intro hbalances hmoves
        unfold Db.balance at hb ⊢
        rw [hbalances, hb, hmoves]
        simp [Balance.add]
      cases w with
      | insertAccount a =>
        refine (lookup_append_of_some hb [⟨a.id, 0⟩]).trans ?_
        simp [Write.moves, Balance.add]
      | addBalance id' amount =>
        have hrow : (s.apply (.addBalance id' amount)).balance id =
            if id = id' then (s.balance id).map (Balance.add amount) else s.balance id :=
          lookup_modify (Balance.add_accountId amount) id
        rw [hrow, hb]
        by_cases hid : id = id'
        · simp [hid, Write.moves]
        · simp [hid, Write.moves, Balance.add]
      | _ => exact hidle rfl rfl
    have hof : (s.apply w).balanceOf id = s.balanceOf id + w.moves id := by
      unfold Db.balanceOf
      rw [hstep, hb]
      rfl
    have hrest : (database.applyAll (database.apply s w) rows).balanceOf id = _ :=
      ih (s := s.apply w) (by rw [hstep]; rfl)
    rw [Database.applyAll_cons, hrest, hof, htally, Pi.add_apply, add_assoc]

/-- The announcements of two lists of writes, one after the other. -/
theorem announcements_append :
    announcements (rows ++ rows') = announcements rows ++ announcements rows' :=
  List.filterMap_append

/-- What comes later is what was last told. -/
theorem lastTold_append (events events' : List RoundDomainEvent) (userId : Uuid) :
    lastTold (events ++ events') userId =
      (lastTold events' userId).or (lastTold events userId) := by
  unfold lastTold
  rw [List.filterMap_append, List.getLast?_append]

/-- Without an announcement nothing has been told. -/
theorem lastTold_mute (h : ∀ w ∈ rows, ∀ userId n, w ≠ .notify (.walletUpdated userId n))
    (userId : Uuid) : lastTold (announcements rows) userId = none := by
  unfold lastTold
  rw [List.getLast?_eq_none_iff, List.filterMap_eq_nil_iff]
  intro e he
  obtain ⟨w, hw, hwe⟩ := List.mem_filterMap.1 he
  cases w with
  | notify e' =>
    obtain rfl : e' = e := Option.some.inj hwe
    cases e' with
    | walletUpdated userId' n => exact absurd rfl (h _ hw userId' n)
    | _ => rfl
  | _ => cases hwe

/-- The accounts are what they were without a write to their table. -/
theorem accounts_applyAll (h : ∀ w ∈ rows, w.table ≠ .accounts) :
    (database.applyAll s rows).accounts = s.accounts := by
  induction rows generalizing s with
  | nil => rfl
  | cons w rows ih =>
    obtain ⟨hw, hrest⟩ := List.forall_mem_cons.1 h
    rw [Database.applyAll_cons, ih hrest]
    refine (s.apply_accounts w).trans ?_
    cases w with
    | insertAccount a => exact absurd rfl hw
    | _ => rfl

/-! ## What the lock on escrow keeps still -/

/-- The balance of a wallet follows from the bets. -/
theorem Consistent.wallet_of_bets (hs : Consistent config s) (hs' : Consistent config s')
    (hgrows : Grows s s') (hbets : s'.bets = s.bets) {userId wallet : Uuid}
    (hw : s.walletOf userId = some wallet) : s'.balanceOf wallet = s.balanceOf wallet := by
  have hown : ∀ {v : Db}, Consistent config v → v.walletOf userId = some wallet →
      v.balanceOf wallet = config.signupGrantMinor + v.total (Bet.gained userId) := by
    intro v hv hwallet
    obtain ⟨a, ha, rfl⟩ := Db.walletOf_eq_some.1 hwallet
    have hkey : a.key = walletKey userId := lookup_key ha
    rcases hv.housed.wallets a (lookup_mem ha) with hsys | ⟨-, -, u, hu, hkeyed⟩
    · simp only [migrated, List.mem_cons, List.not_mem_nil, or_false] at hsys
      rcases hsys with rfl | rfl | rfl <;> cases hkey
    · have hid : u.id = userId := by
        rw [hkeyed] at hkey
        injection hkey
      subst hid
      exact hv.balanced.wallet u hu a.id hwallet
  have hlater := hown hs' (hgrows.walletOf hw)
  have hbefore := hown hs hw
  unfold Db.total at hlater hbefore
  rw [hbets] at hlater
  exact hlater.trans hbefore.symm

/-- What does not need the lock on escrow neither places nor closes a bet. -/
theorem Done.free {es : List Effect} (h : Done config s es) (hs : Consistent config s)
    (hfree : ∀ w ∈ rowsOf es, (.balance escrowId, .exclusive) ∉ needs w) :
    ∀ w ∈ rowsOf es, w.table ≠ .bets := by
  have hescrow : ∀ p : Posted, net p.postings escrowId ≠ 0 →
      ∃ w ∈ p.rows, (.balance escrowId, .exclusive) ∈ needs w := by
    intro p hnet
    by_contra hnone
    refine hnet (net_eq_zero fun q hq heq => hnone ⟨.addBalance q.accountId q.amount.minor, ?_, ?_⟩)
    · refine List.mem_cons_of_mem _ (List.mem_append_right _ (List.mem_map.2 ⟨q, ?_, rfl⟩))
      exact mem_ordered.2 hq
    · simp [needs, heq]
  have hposted : ∀ p : Posted, ∀ w ∈ p.rows, w.table ≠ .bets := by
    intro p w hw
    simp only [Posted.rows, List.mem_cons, List.mem_append, List.mem_map] at hw
    rcases hw with rfl | ⟨e, -, rfl⟩ | ⟨q, -, rfl⟩ <;> simp [Write.table]
  induction es generalizing s with
  | nil => exact List.forall_mem_nil _
  | cons e es ih =>
    have hsplit : rowsOf (e :: es) = e.rows ++ rowsOf es := List.flatMap_cons
    rw [hsplit] at hfree ⊢
    obtain ⟨hfirst, hrest⟩ := List.forall_mem_append.1 hfree
    refine List.forall_mem_append.2 ⟨?_, ih h.2 (hs.after h.1) hrest⟩
    have henabled := h.1
    cases e with
    | enroll u a p =>
      refine List.forall_mem_cons.2 ⟨by simp [Write.table], List.forall_mem_cons.2 ⟨?_, hposted p⟩⟩
      simp [Write.table]
    | place b p =>
      obtain ⟨w, hw, -, hnet⟩ := henabled.wallet
      have hgt := hs.housed.wallet_gt hw
      have hne : escrowId ≠ w := (Nat.lt_trans (by decide : escrowId < 3) hgt).ne
      have hstake := henabled.stake
      obtain ⟨row, hrow, hneeds⟩ := hescrow p (by rw [hnet, if_pos rfl, if_neg hne]; omega)
      exact absurd hneeds (hfirst row (List.mem_cons_of_mem _ hrow))
    | close id u p =>
      obtain ⟨b, hb, -, w, hw, hnet⟩ := henabled.bet
      have hgt := hs.housed.wallet_gt hw
      have hne : escrowId ≠ w := (Nat.lt_trans (by decide : escrowId < 3) hgt).ne
      have hstake := (hs.fits b (Db.bet_mem hb)).stake
      obtain ⟨row, hrow, hneeds⟩ := hescrow p (by
        rw [hnet, if_neg hne, if_pos rfl, if_neg (by decide)]
        omega)
      exact absurd hneeds (hfirst row (List.mem_cons_of_mem _ hrow))
    | advance id u => simp [Effect.rows, Write.table]
    | launch r => simp [Effect.rows, Write.table]
    | aside w =>
      have hw : w.isAside = true := henabled
      refine List.forall_mem_singleton.2 ?_
      cases w with
      | insertBet b => cases hw
      | updateBet id u => cases hw
      | _ => simp [Write.table]

/-- Writes that change no bet leave the wallets as they are. -/
theorem Done.wallets {es : List Effect} (h : Done config s es) (hs : Consistent config s)
    (hbets : ∀ w ∈ rowsOf es, w.table ≠ .bets) {userId wallet : Uuid}
    (hw : s.walletOf userId = some wallet) :
    (database.applyAll s (rowsOf es)).walletOf userId = some wallet ∧
      (database.applyAll s (rowsOf es)).balanceOf wallet = s.balanceOf wallet := by
  obtain ⟨hs', hhistory⟩ := h.keeps hs
  refine ⟨hhistory.toGrows.walletOf hw, hs.wallet_of_bets hs' hhistory.toGrows ?_ hw⟩
  rw [applyAll_bets, rowsOn_eq_nil hbets]
  rfl

/-- The lock on escrow keeps the wallets still. -/
theorem escrow_guards (config : Config) : Guards database (books config) (terms config) Calm where
  refl _ _ _ _ _ _ _ hw := ⟨hw, rfl⟩
  trans h h' hk hm userId w hw := by
    obtain ⟨hw₁, hsame₁⟩ := h hk hm userId w hw
    obtain ⟨hw₂, hsame₂⟩ := h' hk hm userId w hw₁
    exact ⟨hw₂, hsame₂.trans hsame₁⟩
  commits {call s rows k m} hs h hfree hk hm userId w hw := by
    obtain ⟨es, rfl, hdone, -⟩ := h
    subst hk hm
    refine hdone.wallets hs (hdone.free hs fun row hrow hneeds => ?_) hw
    cases hfree row hrow _ hneeds rfl
  draws {call s row k m} hs h hk hm userId w hw := by
    rcases h with rfl | rfl <;> exact ⟨hw, rfl⟩

/-! ## What was told and what was moved -/

/-- Nothing has been told and nothing has been moved. -/
theorem Abreast.nil : Abreast none s [] where
  told _ _ h := by cases h
  moved _ h := absurd rfl h
  accounts := List.forall_mem_nil _

/-- Writes that move nothing and tell of no balance. -/
theorem Abreast.unmoved {late : Option Uuid} (h : Abreast late s rows)
    (hrows : ∀ w ∈ rows', Unmoved w) : Abreast late s (rows ++ rows') := by
  have hmute : ∀ userId, lastTold (announcements (rows ++ rows')) userId =
      lastTold (announcements rows) userId := by
    intro userId
    rw [announcements_append, lastTold_append, lastTold_mute fun w hw => (hrows w hw).mute]
    rfl
  have hstill : tally Write.moves (rows ++ rows') = tally Write.moves rows := by
    rw [tally_append, tally_eq_zero fun w hw => Write.moves_eq_zero (hrows w hw).ledger, add_zero]
  refine ⟨fun userId n hn => ?_, fun id hid => ?_, ?_⟩
  · rw [hmute] at hn
    rw [hstill]
    exact h.told userId n hn
  · rw [hstill] at hid
    simp only [hmute]
    exact h.moved id hid
  · exact List.forall_mem_append.2 ⟨h.accounts, fun w hw => (hrows w hw).accounts⟩

/-- A posting between escrow, the house and the wallet of one user, who is to be told. -/
theorem Abreast.posted {p : Posted} {userId : Uuid} (h : Abreast none s rows)
    (hs : Consistent config s) (hlegs : ∀ q ∈ p.postings, q.accountId = escrowId ∨
      q.accountId = houseId ∨ s.walletOf userId = some q.accountId) :
    Abreast (some userId) s (rows ++ p.rows) := by
  have hmute : ∀ userId', lastTold (announcements (rows ++ p.rows)) userId' =
      lastTold (announcements rows) userId' := by
    intro userId'
    rw [announcements_append, lastTold_append, lastTold_mute]
    · rfl
    · intro w hw userId'' n heq
      simp only [Posted.rows, List.mem_cons, List.mem_append, List.mem_map] at hw
      rcases hw with rfl | ⟨e, -, rfl⟩ | ⟨q, -, rfl⟩ <;> cases heq
  have hmoved : ∀ id, tally Write.moves p.rows id ≠ 0 → id = escrowId ∨ id = houseId ∨
      s.walletOf userId = some id := by
    intro id hid
    by_contra hnone
    refine hid (tally_moves_eq_zero fun w hw => ?_)
    simp only [Posted.rows, List.mem_cons, List.mem_append, List.mem_map] at hw
    rcases hw with rfl | ⟨e, -, rfl⟩ | ⟨q, hq, rfl⟩
    · rfl
    · rfl
    · have hne : id ≠ q.accountId := by
        rintro rfl
        exact hnone (hlegs q (mem_ordered.1 hq))
      simp [Write.moves, hne]
  refine ⟨fun userId' n hn hlate => ?_, fun id hid => ?_, ?_⟩
  · rw [hmute] at hn
    obtain ⟨w, hw, hbalance⟩ := h.told userId' n hn (by simp)
    refine ⟨w, hw, ?_⟩
    have hzero : tally Write.moves p.rows w = 0 := by
      by_contra hne
      have hgt := hs.housed.wallet_gt hw
      rcases hmoved w hne with rfl | rfl | hown
      · exact absurd hgt (by decide)
      · exact absurd hgt (by decide)
      · exact hlate (congrArg some (hs.keyed.wallet_injective hown hw))
    rw [tally_append, Pi.add_apply, hzero, add_zero]
    exact hbalance
  · rw [tally_append, Pi.add_apply] at hid
    simp only [hmute]
    by_cases hzero : tally Write.moves p.rows id = 0
    · rw [hzero, add_zero] at hid
      rcases h.moved id hid with hsys | hsys | ⟨userId', hw, hnone | htold⟩
      · exact .inl hsys
      · exact .inr (.inl hsys)
      · cases hnone
      · exact .inr (.inr ⟨userId', hw, .inr htold⟩)
    · rcases hmoved id hzero with hsys | hsys | hw
      · exact .inl hsys
      · exact .inr (.inl hsys)
      · exact .inr (.inr ⟨userId, hw, .inl rfl⟩)
  · refine List.forall_mem_append.2 ⟨h.accounts, fun w hw => ?_⟩
    simp only [Posted.rows, List.mem_cons, List.mem_append, List.mem_map] at hw
    rcases hw with rfl | ⟨e, -, rfl⟩ | ⟨q, -, rfl⟩ <;> simp [Write.table]

/-- The user is told. -/
theorem Abreast.tell {userId wallet : Uuid} {n : ℤ} (h : Abreast (some userId) s rows)
    (hw : s.walletOf userId = some wallet) (hn : n = s.balanceOf wallet + tally Write.moves rows wallet) :
    Abreast none s (rows ++ [.notify (.walletUpdated userId n)]) := by
  have hlast : ∀ userId', lastTold (announcements (rows ++ [.notify (.walletUpdated userId n)]))
      userId' = if userId = userId' then some n else lastTold (announcements rows) userId' := by
    intro userId'
    rw [announcements_append, lastTold_append]
    by_cases heq : userId = userId'
    · simp [announcements, lastTold, RoundDomainEvent.balanceFor, heq]
    · simp [announcements, lastTold, RoundDomainEvent.balanceFor, heq]
  have hstill : tally Write.moves (rows ++ [.notify (.walletUpdated userId n)]) =
      tally Write.moves rows := by
    rw [tally_snoc]
    exact add_zero _
  refine ⟨fun userId' n' hn' _ => ?_, fun id hid => ?_, ?_⟩
  · rw [hlast] at hn'
    rw [hstill]
    by_cases heq : userId = userId'
    · rw [if_pos heq] at hn'
      subst heq
      exact ⟨wallet, hw, (Option.some.inj hn').symm.trans hn⟩
    · rw [if_neg heq] at hn'
      exact h.told userId' n' hn' fun hlate => heq (Option.some.inj hlate)
  · rw [hstill] at hid
    rcases h.moved id hid with hsys | hsys | ⟨userId', hw', hlate⟩
    · exact .inl hsys
    · exact .inr (.inl hsys)
    · refine .inr (.inr ⟨userId', hw', .inr ?_⟩)
      rw [hlast]
      by_cases heq : userId = userId'
      · simp [heq]
      · rw [if_neg heq]
        exact hlate.resolve_left fun h => heq (Option.some.inj h)
  · refine List.forall_mem_append.2 ⟨h.accounts, List.forall_mem_singleton.2 ?_⟩
    simp [Write.table]

/-- What is committed so leaves everyone up to date. -/
theorem UpToDate.after {es : List Effect} (h : UpToDate s) (hs : Consistent config s)
    (hdone : Done config s es) (htracks : Tracks s (rowsOf es)) :
    UpToDate (database.applyAll s (rowsOf es)) := by
  have hgrows := (hdone.keeps hs).2.toGrows
  intro userId n hn
  rw [applyAll_announcements, lastTold_append] at hn
  rcases htracks with habreast | hidle
  · cases htold : lastTold (announcements (rowsOf es)) userId with
    | some n' =>
      rw [htold] at hn
      obtain rfl : n' = n := Option.some.inj hn
      obtain ⟨w, hw, hbalance⟩ := habreast.told userId n' htold (by simp)
      refine ⟨w, hgrows.walletOf hw, ?_⟩
      rw [balanceOf_applyAll (hs.keyed.wallet_row hw)]
      exact hbalance.symm
    | none =>
      -- his wallet was not moved, or he would have been told
      rw [htold] at hn
      obtain ⟨w, hw, hbalance⟩ := h userId n hn
      refine ⟨w, hgrows.walletOf hw, ?_⟩
      have hgt := hs.housed.wallet_gt hw
      have hzero : tally Write.moves (rowsOf es) w = 0 := by
        by_contra hne
        rcases habreast.moved w hne with rfl | rfl | ⟨userId', hw', hnone | hsome⟩
        · exact absurd hgt (by decide)
        · exact absurd hgt (by decide)
        · cases hnone
        · rw [hs.keyed.wallet_injective hw' hw, htold] at hsome
          cases hsome
      rw [balanceOf_applyAll (hs.keyed.wallet_row hw), hzero, add_zero]
      exact hbalance
  · have hmute : lastTold (announcements (rowsOf es)) userId = none := by
      refine lastTold_mute (fun w hw userId' n' heq => ?_) userId
      have hnotify := (hidle w hw).2
      rw [heq] at hnotify
      exact hnotify rfl
    rw [hmute] at hn
    obtain ⟨w, hw, hbalance⟩ := h userId n hn
    obtain ⟨hw', hsame⟩ := hdone.wallets hs (fun w hw => (hidle w hw).1) hw
    exact ⟨w, hw', hsame.trans hbalance⟩

end

/-! ## The rules -/

/-- The disciplines that the rules apply to. -/
structure Lookout (config : Config) (R : Discipline Db LockKey Write) : Prop where
  overlay : Overlay R trackedTerms
  consistent : ∀ {s}, R.inv s → Consistent config s
  calm : ∀ {k m s s'}, R.same k m s s' → Calm k m s s'

/-- The books are such a discipline. -/
theorem books_lookout (config : Config) :
    Lookout config ((books config).vigilant Calm UpToDate) where
  overlay :=
    { lax :=
        { regular := (escrow_guards config).regular (books_regular config)
          guard := fun _ _ _ => trivial
          needs := fun _ => rfl
          tidy := fun _ => trivial
          draws := fun held {s row} hs hrow => by
            have hbooks := (books_base config).draw held hs.1 hrow
            refine ⟨trivial, ⟨hbooks.inv, ?_⟩, hbooks.grows, fun h hh => ⟨hbooks.same h hh, ?_⟩⟩
            · cases row with
              | drawNonce => exact hs.2
              | drawEntryId => exact hs.2
              | _ => cases hrow
            · have hdraws : (terms config (.lockRound 0)).draws s row := by
                cases row with
                | drawNonce => exact .inl rfl
                | drawEntryId => exact .inr rfl
                | _ => cases hrow
              exact (escrow_guards config).draws hs.1 hdraws }
      same := fun h => h.1
      grows := fun h => History.toGrows h }
  consistent h := h.1
  calm h := h.2

section
variable {config : Config} {R : Discipline Db LockKey Write}
variable {f f' : Standing Db LockKey Write} {s s' : Db} {α β : Type} {late : Option Uuid}
variable {userId wallet : Uuid}

/-- What is pending is told as it is moved, now and whatever the others do. -/
abbrev InStep (R : Discipline Db LockKey Write) (late : Option Uuid)
    (f : Standing Db LockKey Write) (s : Db) : Prop :=
  Transactions.Ready R (Abreast late) f s

/-- A part of a transaction ends with everybody told, or it fails. -/
def EndsInStep (R : Discipline Db LockKey Write) : Post Db LockKey Write AppError α :=
  fun r f s => ∀ a, r = .ok a → R.inv s ∧ InStep R none f s

/-- After an error nothing is promised about the announcements. -/
theorem endsInStep_error {e : AppError} : EndsInStep R (.error e : Except AppError α) f s :=
  fun _ h => by cases h

/-- A session without writes is in step. -/
theorem inStep_nil (hf : f.pending = []) : InStep R none f s := by
  intro s' _
  rw [hf]
  exact .nil

/-- A part that moves no balance leaves a session in step. -/
theorem InStep.unmoved (h : InStep R late f s) (hR : R.Regular)
    (ho : Onward R Unmoved f s f' s') : InStep R late f' s' := by
  intro s'' hs''
  obtain ⟨rows, hrows, hunmoved⟩ := ho.pending
  rw [hrows]
  exact (h s'' (ho.rely.trans hR (hs''.mono ho.kept))).unmoved hunmoved

/-- The balance of a wallet, as the session has read it and until it commits. -/
def Reads (R : Discipline Db LockKey Write) (userId wallet : Uuid) (n : ℤ)
    (f : Standing Db LockKey Write) (s : Db) : Prop :=
  Always R f.held s fun s' => s'.walletOf userId = some wallet ∧
    n = s'.balanceOf wallet + tally Write.moves f.pending wallet

/-- What was read of a wallet is still so after it. -/
theorem Reads.unmoved {n : ℤ} (h : Reads R userId wallet n f s) (hR : R.Regular)
    (ho : Onward R Unmoved f s f' s') : Reads R userId wallet n f' s' := by
  intro s'' hs''
  obtain ⟨rows, hrows, hunmoved⟩ := ho.pending
  rw [hrows, tally_append,
    tally_eq_zero fun w hw => Write.moves_eq_zero (hunmoved w hw).ledger, add_zero]
  exact h s'' (ho.rely.trans hR (hs''.mono ho.kept))

variable (hL : Lookout config R)
include hL

/-- Such a discipline respects the row locks. -/
theorem Lookout.regime : Regime R where
  regular := hL.overlay.lax.regular
  needs w := by
    rw [hL.overlay.lax.needs]
    exact List.nil_subset _
  same := hL.overlay.same
  grows := hL.overlay.grows
  tidy _ _ := hL.overlay.lax.tidy _
  draw hs := by
    have hdraw : Write.drawEntryId.isDraw = true := rfl
    exact (hL.overlay.lax.draws _ hs hdraw).2

/-- A part that moves nothing, before the rest. -/
theorem wp_thenUnmoved {p : Action β} {k : β → Action α}
    (hp : p.Within Unmoved fun w => w.isDraw = true) (hs : R.inv s)
    {Q : Post Db LockKey Write AppError α}
    (hk : ∀ a f' s', Onward R Unmoved f s f' s' → wp database R trackedTerms (k a) f' s' Q)
    (herror : ∀ e f' s', Q (.error e) f' s') :
    wp database R trackedTerms (p >>= k) f s Q := by
  refine wp_bind.2 (wp_mono (fun r f' s' h => ?_) (wp_within hL.overlay.lax hs hp))
  cases r with
  | ok a => exact hk a f' s' h
  | error e => exact herror e f' s'

/-- A posting between escrow, the house and the wallet of one user. -/
theorem wp_thenPost (userId : Uuid) {input : PostInput} {k : PostedTransaction → Action α} (hs : R.inv s)
    (hlegs : ∀ q ∈ input.postings, q.accountId = escrowId ∨ q.accountId = houseId ∨
      s.walletOf userId = some q.accountId)
    (hescrow : ∃ q ∈ input.postings, q.accountId = escrowId) (h : InStep R none f s)
    {Q : Post Db LockKey Write AppError α}
    (hk : ∀ a f' s', Later R f s f' s' → (.balance escrowId, .exclusive) ∈ f'.held →
      InStep R (some userId) f' s' → wp database R trackedTerms (k a) f' s' Q)
    (herror : ∀ e f' s', Q (.error e) f' s') :
    wp database R trackedTerms (postEnlisted input >>= k) f s Q := by
  have hR := hL.overlay.lax.regular
  have hfair : Fair trackedTerms := ⟨fun _ _ _ _ => trivial, fun _ => trivial⟩
  refine wp_bind.2 (wp_postEnlisted (M := fun _ _ => True) hL.regime hfair hs
    (fun _ _ _ _ _ _ _ _ _ => trivial) (fun _ _ _ _ _ _ _ _ _ => trivial)
    (fun x p f₁ s₁ _ hpostings _ _ P => onValue_ok (hk _ f₁ s₁ P.toLater ?_ ?_))
    (fun e _ => herror e f s) fun x e f₁ s₁ _ _ _ => herror e f₁ s₁)
  · obtain ⟨q, hq, hid⟩ := hescrow
    refine P.got (List.mem_append_left _ (List.mem_reverse.2 (List.mem_map.2 ⟨q, ?_, by rw [hid]⟩)))
    exact mem_ordered.2 hq
  · intro s₂ h₂
    have hrely : Rely R f.held s s₂ := P.rely.trans hR (h₂.mono P.kept)
    rw [P.pending]
    refine (h s₂ hrely).posted (hL.consistent hrely.inv) fun q hq => ?_
    rw [hpostings] at hq
    exact (hlegs q hq).imp_right (Or.imp_right (hL.overlay.grows hrely.grows).walletOf)

/-- The balance of a wallet is read while escrow is held. -/
theorem wp_thenBalance {k : Money → Action α}
    (hescrow : (.balance escrowId, .exclusive) ∈ f.held) (hw : s.walletOf userId = some wallet)
    (h : InStep R late f s) {Q : Post Db LockKey Write AppError α}
    (hk : ∀ balance f' s', R.inv s' → InStep R late f' s' →
      Reads R userId wallet balance.minor f' s' → wp database R trackedTerms (k balance) f' s' Q)
    (herror : ∀ e f' s', Q (.error e) f' s') :
    wp database R trackedTerms (getBalance wallet >>= k) f s Q := by
  have hR := hL.overlay.lax.regular
  refine wp_bind.2 (wp_bind.2 (wp_selectOnward fun f₁ s₁ h₁ => onValue_ok (wp_check ?_)))
  unfold readBigint
  split
  case isFalse => exact herror _ _ _
  case isTrue =>
    have ho : Onward R Unmoved f s f₁ s₁ := h₁.mono fun _ hw => hw.elim
    refine hk _ f₁ s₁ h₁.rely.inv (h.unmoved hR ho) fun s₂ h₂ => ?_
    have hw₁ := (hL.overlay.grows h₁.rely.grows).walletOf hw
    obtain ⟨hw₂, hsame⟩ := hL.calm (h₂.same _ (h₁.kept hescrow)) rfl rfl userId wallet hw₁
    have hrow := (hL.consistent h₁.rely.inv).keyed.wallet_row hw₁
    refine ⟨hw₂, ?_⟩
    rw [hsame]
    exact balanceOf_applyAll hrow

/-- The user is told the balance that was read. -/
theorem wp_tell_abreast {n : ℤ} (h : InStep R (some userId) f s)
    (hn : Reads R userId wallet n f s) {Q : Post Db LockKey Write AppError Unit}
    (hok : ∀ f' s', R.inv s' → InStep R none f' s' → Q (.ok ()) f' s') :
    wp database R trackedTerms (publish (.walletUpdated userId n)) f s Q := by
  have hR := hL.overlay.lax.regular
  refine hL.overlay.put fun s₁ h₁ => hok _ s₁ h₁.inv fun s₂ h₂ => ?_
  have hrely : Rely R f.held s s₂ := h₁.trans hR h₂
  obtain ⟨hw, hbalance⟩ := hn s₂ hrely
  exact (h s₂ hrely).tell hw hbalance

omit hL in
/-- The wallet of a user, in a transaction that opens no account. -/
theorem wp_thenWallet {k : Uuid → Action α} (h : InStep R late f s)
    {Q : Post Db LockKey Write AppError α}
    (hk : ∀ wallet f' s', Onward R Unmoved f s f' s' → s'.walletOf userId = some wallet →
      wp database R trackedTerms (k wallet) f' s' Q)
    (herror : ∀ e f' s', Q (.error e) f' s') :
    wp database R trackedTerms (getWalletAccountId userId >>= k) f s Q := by
  refine wp_bind.2 (wp_bind.2 (wp_selectOnward fun f₁ s₁ h₁ => onValue_ok ?_))
  have ho : Onward R Unmoved f s f₁ s₁ := h₁.mono fun _ hw => hw.elim
  have haccounts : (f₁.view database s₁).accounts = s₁.accounts := by
    refine accounts_applyAll (fun w hw => ?_)
    rw [h₁.still] at hw
    exact (h s₁ h₁.rely).accounts w hw
  cases haccount : (f₁.view database s₁).accountByKey (walletKey userId) with
  | none => exact wp_throw (herror _ _ _)
  | some account =>
    refine wp_pure (hk account.id f₁ s₁ ho ?_)
    unfold Db.accountByKey at haccount
    rw [haccounts] at haccount
    exact Db.walletOf_eq_some.2 ⟨account, haccount, rfl⟩

/-! ## Bets that are closed -/

/-- The outcome of a bet is announced to its owner, with his balance. -/
theorem wp_publishBetOutcome_abreast {betId : Uuid} (h : InStep R (some userId) f s)
    (hescrow : (.balance escrowId, .exclusive) ∈ f.held) (hw : s.walletOf userId = some wallet) :
    wp database R trackedTerms (publishBetOutcome betId userId wallet) f s (EndsInStep R) := by
  have hR := hL.overlay.lax.regular
  refine wp_bind.2 (wp_selectOnward fun f₁ s₁ h₁ => onValue_ok ?_)
  have ho : Onward R Unmoved f s f₁ s₁ := h₁.mono fun _ hw => hw.elim
  cases (f₁.view database s₁).bet betId with
  | none => exact wp_throw endsInStep_error
  | some row =>
    refine wp_thenBalance hL (h₁.kept hescrow) ((hL.overlay.grows h₁.rely.grows).walletOf hw)
      (h.unmoved hR ho) (fun balance f₂ s₂ hs₂ h₂ hread => ?_) fun _ _ _ => endsInStep_error
    refine wp_thenUnmoved hL (Within.put (unmoved_notify (by simp))) hs₂ (fun _ f₃ s₃ h₃ => ?_)
      fun _ _ _ => endsInStep_error
    exact wp_tell_abreast hL (h₂.unmoved hR h₃) (hread.unmoved hR h₃) fun f₄ s₄ hs₄ h₄ _ _ =>
      ⟨hs₄, h₄⟩

/-- A lost bet: the balance of its wallet is announced as it is. -/
theorem settleLostBet_abreast {b : Bet} (hs : R.inv s) (h : InStep R none f s) :
    wp database R trackedTerms (settleLostBet b) f s (EndsInStep R) := by
  have hR := hL.overlay.lax.regular
  refine wp_bind.2 (wp_read fun x => onValue_ok ?_)
  refine wp_thenUnmoved hL (updateActiveBet_touches.unmoved (by simp) (by simp) (by simp)) hs
    (fun _ f₁ s₁ h₁ => ?_) fun _ _ _ => endsInStep_error
  refine wp_thenPost hL b.userId h₁.rely.inv (by simp) ⟨_, List.mem_cons_self, rfl⟩
    (h.unmoved hR h₁) (fun _ f₂ s₂ _ hescrow h₂ => ?_) fun _ _ _ => endsInStep_error
  refine wp_thenWallet h₂ (fun wallet f₃ s₃ h₃ hw => ?_) fun _ _ _ => endsInStep_error
  exact wp_publishBetOutcome_abreast hL (h₂.unmoved hR h₃) (h₃.kept hescrow) hw

omit hL in
/-- A win moves escrow, the house, and the wallet of the bet. -/
theorem winPostings_legs {stake profit : Money} {q : Posting}
    (hq : q ∈ winPostings wallet stake profit) :
    q.accountId = escrowId ∨ q.accountId = houseId ∨ some wallet = some q.accountId := by
  unfold winPostings at hq
  split at hq
  · simp only [List.cons_append, List.nil_append, List.mem_cons, List.not_mem_nil, or_false] at hq
    rcases hq with rfl | rfl | rfl | rfl <;> simp
  · simp only [List.append_nil, List.mem_cons, List.not_mem_nil, or_false] at hq
    rcases hq with rfl | rfl <;> simp

/-- A won bet: the balance of its wallet is announced after it has moved. -/
theorem settleWonBet_abreast {b : Bet} {oddsBp : ℤ} (hs : R.inv s) (h : InStep R none f s) :
    wp database R trackedTerms (settleWonBet b oddsBp) f s (EndsInStep R) := by
  have hR := hL.overlay.lax.regular
  refine wp_bind.2 (wp_check ?_)
  cases basisPointsFromRaw oddsBp with
  | error e => exact endsInStep_error
  | ok multiplier =>
  refine onValue_ok (wp_bind.2 (wp_check ?_))
  cases b.stakeMinor.applyMultiplier multiplier with
  | error e => exact endsInStep_error
  | ok payout =>
  refine onValue_ok (wp_bind.2 (wp_check ?_))
  cases Money.sub payout b.stakeMinor with
  | error e => exact endsInStep_error
  | ok profit =>
  refine onValue_ok (wp_bind.2 (wp_read fun x => onValue_ok ?_))
  refine wp_thenUnmoved hL (updateActiveBet_touches.unmoved (by simp) (by simp) (by simp)) hs
    (fun _ f₁ s₁ h₁ => ?_) fun _ _ _ => endsInStep_error
  refine wp_thenWallet (h.unmoved hR h₁) (fun wallet f₂ s₂ h₂ hw => ?_)
    fun _ _ _ => endsInStep_error
  refine wp_thenPost hL b.userId h₂.rely.inv (fun q hq => hw ▸ winPostings_legs hq)
    ⟨_, List.mem_cons_self, rfl⟩ (h.unmoved hR (h₁.trans hR h₂))
    (fun _ f₃ s₃ hl hescrow h₃ => ?_) fun _ _ _ => endsInStep_error
  refine wp_thenUnmoved hL Within.select hl.rely.inv (fun _ f₄ s₄ h₄ => ?_)
    fun _ _ _ => endsInStep_error
  refine wp_thenUnmoved hL Within.select h₄.rely.inv (fun _ f₅ s₅ h₅ => ?_)
    fun _ _ _ => endsInStep_error
  refine wp_thenUnmoved hL (Within.put (unmoved_notify (by simp))) h₅.rely.inv
    (fun _ f₆ s₆ h₆ => ?_) fun _ _ _ => endsInStep_error
  have ho : Onward R Unmoved f₃ s₃ f₆ s₆ := (h₄.trans hR h₅).trans hR h₆
  refine wp_publishBetOutcome_abreast hL (h₃.unmoved hR ho) (ho.kept hescrow) ?_
  exact (hL.overlay.grows (hl.trans hR ho.toLater).rely.grows).walletOf hw

/-- Whichever of the two it is. -/
theorem settleBet_abreast {r : Round} {b : Bet} (hs : R.inv s) (h : InStep R none f s) :
    wp database R trackedTerms (settleBet r b) f s (EndsInStep R) := by
  unfold settleBet
  cases r.game with
  | CRASH => exact settleLostBet_abreast hL hs h
  | ROULETTE =>
    refine wp_bind.2 (wp_check ?_)
    cases b.winsAt (r.winningPocket.getD 0) with
    | error e => exact endsInStep_error
    | ok won =>
      cases won with
      | none => exact settleLostBet_abreast hL hs h
      | some odds => exact settleWonBet_abreast hL hs h

/-- A refund: the balance of its wallet is announced after it has moved. -/
theorem refundBet_abreast {b : Bet} (hs : R.inv s) (h : InStep R none f s) :
    wp database R trackedTerms (refundBet b) f s (EndsInStep R) := by
  have hR := hL.overlay.lax.regular
  refine wp_bind.2 (wp_read fun x => onValue_ok ?_)
  refine wp_thenUnmoved hL (updateActiveBet_touches.unmoved (by simp) (by simp) (by simp)) hs
    (fun _ f₁ s₁ h₁ => ?_) fun _ _ _ => endsInStep_error
  refine wp_thenWallet (h.unmoved hR h₁) (fun wallet f₂ s₂ h₂ hw => ?_)
    fun _ _ _ => endsInStep_error
  refine wp_thenPost hL b.userId h₂.rely.inv (by simp [hw])
    ⟨_, List.mem_cons_self, rfl⟩ (h.unmoved hR (h₁.trans hR h₂))
    (fun _ f₃ s₃ hl hescrow h₃ => ?_) fun _ _ _ => endsInStep_error
  exact wp_publishBetOutcome_abreast hL h₃ hescrow
    ((hL.overlay.grows hl.rely.grows).walletOf hw)

/-- A bet that is cashed out: the balance of its wallet is announced after it has moved. -/
theorem payCashOut_abreast {input : CashOutInput} {b : Bet} {game : GameKind} {now : Time}
    {multiplierBp : ℤ} (hs : R.inv s) (h : InStep R none f s) :
    wp database R trackedTerms (payCashOut input b game now multiplierBp) f s (EndsInStep R) := by
  have hR := hL.overlay.lax.regular
  refine wp_bind.2 (wp_check ?_)
  cases basisPointsFromRaw multiplierBp with
  | error e => exact endsInStep_error
  | ok multiplier =>
  refine onValue_ok (wp_bind.2 (wp_check ?_))
  cases b.stakeMinor.applyMultiplier multiplier with
  | error e => exact endsInStep_error
  | ok payout =>
  refine onValue_ok (wp_bind.2 (wp_check ?_))
  cases Money.sub payout b.stakeMinor with
  | error e => exact endsInStep_error
  | ok profit =>
  refine onValue_ok (wp_thenUnmoved hL
    (updateActiveBet_touches.unmoved (by simp) (by simp) (by simp)) hs (fun found f₁ s₁ h₁ => ?_)
    fun _ _ _ => endsInStep_error)
  cases found with
  | none => exact wp_throw endsInStep_error
  | some updated =>
  refine wp_thenWallet (h.unmoved hR h₁) (fun wallet f₂ s₂ h₂ hw => ?_)
    fun _ _ _ => endsInStep_error
  refine wp_thenPost hL input.userId h₂.rely.inv (fun q hq => hw ▸ winPostings_legs hq)
    ⟨_, List.mem_cons_self, rfl⟩ (h.unmoved hR (h₁.trans hR h₂))
    (fun _ f₃ s₃ hl hescrow h₃ => ?_) fun _ _ _ => endsInStep_error
  refine wp_thenUnmoved hL Within.select hl.rely.inv (fun _ f₄ s₄ h₄ => ?_)
    fun _ _ _ => endsInStep_error
  refine wp_thenBalance hL (h₄.kept hescrow)
    ((hL.overlay.grows (hl.trans hR h₄.toLater).rely.grows).walletOf hw) (h₃.unmoved hR h₄)
    (fun balance f₅ s₅ hs₅ h₅ hread => ?_) fun _ _ _ => endsInStep_error
  refine wp_thenUnmoved hL (Within.put (unmoved_notify (by simp))) hs₅ (fun _ f₆ s₆ h₆ => ?_)
    fun _ _ _ => endsInStep_error
  refine wp_bind.2 (wp_tell_abreast hL (h₅.unmoved hR h₆) (hread.unmoved hR h₆)
    fun f₇ s₇ hs₇ h₇ => onValue_ok ?_)
  refine wp_thenUnmoved hL (Within.put (unmoved_notify (by simp))) hs₇ (fun _ f₈ s₈ h₈ => ?_)
    fun _ _ _ => endsInStep_error
  exact wp_pure fun _ _ => ⟨h₈.rely.inv, h₇.unmoved hR h₈⟩

/-- So it is on every branch that moves it. -/
theorem cashOutActive_abreast {input : CashOutInput} {b : Bet} (hs : R.inv s)
    (h : InStep R none f s) :
    wp database R trackedTerms (cashOutActive input b) f s (EndsInStep R) := by
  have hR := hL.overlay.lax.regular
  refine wp_thenUnmoved hL Within.select hs (fun found f₁ s₁ h₁ => ?_) fun _ _ _ => endsInStep_error
  cases found with
  | none => exact wp_throw endsInStep_error
  | some round =>
    dsimp only
    split
    · split
      · refine wp_bind.2 (wp_read fun x => onValue_ok ?_)
        split
        · exact wp_throw endsInStep_error
        · exact payCashOut_abreast hL h₁.rely.inv (h.unmoved hR h₁)
      · exact wp_throw endsInStep_error
    · exact wp_throw endsInStep_error

/-- The bets of a round are closed one by one, and then the round itself. -/
theorem wp_closeRound_abreast {roundId : Uuid} (body : Bet → Action Unit)
    (from_ : RoundStatus → Bool) (u : Time → RoundUpdate) (hs : R.inv s) (h : InStep R none f s)
    (hbody : ∀ b f' s', R.inv s' → InStep R none f' s' →
      wp database R trackedTerms (body b) f' s' (EndsInStep R)) :
    wp database R trackedTerms
      (do
        let activeBets ← lockActiveBets roundId
        forEach body activeBets
        let x ← read
        let _ ← updateRoundWhere roundId from_ (u x.now)
        publish (.roundState roundId)) f s (EndsInStep R) := by
  have hR := hL.overlay.lax.regular
  have htables : Touches [] (lockActiveBets roundId) := lockActiveBets_touches
  refine wp_thenUnmoved hL (htables.unmoved (by simp) (by simp) (by simp)) hs
    (fun found f₁ s₁ h₁ => ?_) fun _ _ _ => endsInStep_error
  refine wp_bind.2 (wp_forEach (fun _ f' s' => R.inv s' ∧ InStep R none f' s') []
    ⟨h₁.rely.inv, h.unmoved hR h₁⟩ (fun done b after _ f₂ s₂ h₂ => ?_)
    fun f₂ s₂ h₂ => onValue_ok ?_)
  · refine wp_mono (fun res f₃ s₃ h₃ => ?_) (hbody b f₂ s₂ h₂.1 h₂.2)
    cases res with
    | error e => exact endsInStep_error
    | ok _ => exact h₃ () rfl
  · refine wp_bind.2 (wp_read fun x => onValue_ok ?_)
    refine wp_thenUnmoved hL (updateRoundWhere_touches.unmoved (by simp) (by simp) (by simp)) h₂.1
      (fun _ f₃ s₃ h₃ => ?_) fun _ _ _ => endsInStep_error
    refine wp_mono (fun r f₄ s₄ h₄ _ _ => ?_)
      (wp_within hL.overlay.lax h₃.rely.inv (Within.put (unmoved_notify (by simp))))
    exact ⟨h₄.rely.inv, h₂.2.unmoved hR (h₃.trans hR h₄)⟩

/-! ## Transactions -/

omit hL in
/-- A transaction whose block ends with everybody told. -/
theorem wp_transaction_abreast {body : Action α}
    (h : wp database R trackedTerms body f s (EndsInStep R)) :
    wp database R trackedTerms (transaction body) f s fun _ f' _ => f'.pending = [] := by
  refine wp_transaction_ready (wp_mono (fun r f' s' hr a ha s'' hs'' => ?_) h)
  exact .inl ((hr a ha).2 s'' hs'')

/-- A new bet: the balance of its wallet is announced after the stake has left it. -/
theorem recordBet_abreast {input : PlaceBetInput} {stake : Money} {game : GameKind}
    {priced : PricedSelection} (hs : R.inv s) (hw : s.walletOf input.userId = some wallet)
    (h : InStep R none f s) :
    wp database R trackedTerms (recordBet input stake game priced wallet) f s (EndsInStep R) := by
  have hR := hL.overlay.lax.regular
  refine wp_bind.2 (wp_read fun x => onValue_ok (wp_bind.2 (wp_ensure (fun _ => onValue_ok ?_)
    fun _ => endsInStep_error)))
  refine wp_thenUnmoved hL (insertBet_touches.unmoved (by simp) (by simp) (by simp)) hs
    (fun _ f₁ s₁ h₁ => ?_) fun _ _ _ => endsInStep_error
  have hw₁ := (hL.overlay.grows h₁.rely.grows).walletOf hw
  refine wp_thenPost hL input.userId h₁.rely.inv (by simp [hw₁])
    ⟨_, List.mem_cons_of_mem _ List.mem_cons_self, rfl⟩ (h.unmoved hR h₁)
    (fun _ f₂ s₂ hl hescrow h₂ => ?_) fun _ _ _ => endsInStep_error
  refine wp_thenUnmoved hL Within.select hl.rely.inv (fun _ f₃ s₃ h₃ => ?_)
    fun _ _ _ => endsInStep_error
  refine wp_thenBalance hL (h₃.kept hescrow)
    ((hL.overlay.grows (hl.trans hR h₃.toLater).rely.grows).walletOf hw₁) (h₂.unmoved hR h₃)
    (fun balance f₄ s₄ hs₄ h₄ hread => ?_) fun _ _ _ => endsInStep_error
  refine wp_thenUnmoved hL (Within.put (unmoved_notify (by simp))) hs₄ (fun _ f₅ s₅ h₅ => ?_)
    fun _ _ _ => endsInStep_error
  exact wp_bind.2 (wp_tell_abreast hL (h₄.unmoved hR h₅) (hread.unmoved hR h₅)
    fun f₆ s₆ hs₆ h₆ => onValue_ok (wp_pure fun _ _ => ⟨hs₆, h₆⟩))

/-- So it is on every branch that moves it. -/
theorem placeBetTransaction_abreast {input : PlaceBetInput} {stake : Money} (hs : R.inv s)
    (h : InStep R none f s) :
    wp database R trackedTerms (placeBetTransaction input stake) f s (EndsInStep R) := by
  have hR := hL.overlay.lax.regular
  refine wp_thenUnmoved hL Within.select hs (fun replay f₁ s₁ h₁ => ?_)
    fun _ _ _ => endsInStep_error
  cases replay with
  | some replay => exact wp_pure fun _ _ => ⟨h₁.rely.inv, h.unmoved hR h₁⟩
  | none =>
    refine wp_thenUnmoved hL Within.selectForLock h₁.rely.inv (fun found f₂ s₂ h₂ => ?_)
      fun _ _ _ => endsInStep_error
    cases found with
    | none => exact wp_throw endsInStep_error
    | some round =>
      dsimp only
      split
      · exact wp_throw endsInStep_error
      · refine wp_bind.2 (wp_check ?_)
        cases priceSelection round.game input.selection with
        | error e => exact endsInStep_error
        | ok priced =>
          refine onValue_ok (wp_thenWallet (h.unmoved hR (h₁.trans hR h₂))
            (fun wallet f₃ s₃ h₃ hw => ?_) fun _ _ _ => endsInStep_error)
          have htables : ∀ amount, Touches [] (lockAndAssertSufficient wallet amount) :=
            fun _ => lockAndAssertSufficient_touches
          refine wp_thenUnmoved hL ((htables stake).unmoved (by simp) (by simp) (by simp))
            h₃.rely.inv (fun _ f₄ s₄ h₄ => ?_) fun _ _ _ => endsInStep_error
          refine recordBet_abreast hL h₄.rely.inv
            ((hL.overlay.grows h₄.rely.grows).walletOf hw) ?_
          exact h.unmoved hR (((h₁.trans hR h₂).trans hR h₃).trans hR h₄)

/-- `placeBet` commits no balance without its announcement. -/
theorem placeBet_abreast {input : PlaceBetInput} (hs : R.inv s) (hf : f.pending = []) :
    wp database R trackedTerms (placeBet config input) f s fun _ _ _ => True := by
  unfold placeBet
  split
  · exact wp_throw trivial
  · refine wp_bind.2 (wp_check ?_)
    cases Money.fromMinor input.stakeMinor with
    | error e => trivial
    | ok stake =>
      refine onValue_ok (wp_handle.2 (wp_mono (fun r f₁ s₁ hf₁ => ?_)
        (wp_transaction_abreast (placeBetTransaction_abreast hL hs (inStep_nil hf)))))
      cases r with
      | ok view => trivial
      | error e =>
        change wp _ _ _ (placeBetRecover input e) f₁ s₁ _
        unfold placeBetRecover
        split
        · refine wp_bind.2 (wp_selectOnward fun f₂ s₂ h₂ => onValue_ok ?_)
          cases findByIdempotencyKey input.userId input.idempotencyKey (f₂.view database s₂) with
          | none => exact wp_throw trivial
          | some existing => exact wp_pure trivial
        · exact wp_throw trivial

/-- Nor does `cashOut`. -/
theorem cashOut_abreast {input : CashOutInput} (hs : R.inv s) (hf : f.pending = []) :
    wp database R trackedTerms (cashOut input) f s fun _ _ _ => True := by
  have hR := hL.overlay.lax.regular
  refine wp_mono (fun _ _ _ _ => trivial) (wp_transaction_abreast ?_)
  have hnil : InStep R none f s := inStep_nil hf
  refine wp_thenUnmoved hL Within.selectForLock hs (fun found f₁ s₁ h₁ => ?_)
    fun _ _ _ => endsInStep_error
  cases found with
  | none => exact wp_throw endsInStep_error
  | some bet =>
    dsimp only
    split
    · exact wp_pure fun _ _ => ⟨h₁.rely.inv, hnil.unmoved hR h₁⟩
    · exact cashOutActive_abreast hL h₁.rely.inv (hnil.unmoved hR h₁)
    · exact wp_throw endsInStep_error

/-- Nor does `settleRound`. -/
theorem settleRound_abreast {roundId : Uuid} (hs : R.inv s) (hf : f.pending = []) :
    wp database R trackedTerms (settleRound roundId) f s fun _ _ _ => True := by
  have hR := hL.overlay.lax.regular
  refine wp_mono (fun _ _ _ _ => trivial) (wp_transaction_abreast ?_)
  have hnil : InStep R none f s := inStep_nil hf
  refine wp_thenUnmoved hL Within.selectForLock hs (fun found f₁ s₁ h₁ => ?_)
    fun _ _ _ => endsInStep_error
  cases found with
  | none => exact wp_pure fun _ _ => ⟨h₁.rely.inv, hnil.unmoved hR h₁⟩
  | some round =>
    dsimp only
    split
    · exact wp_pure fun _ _ => ⟨h₁.rely.inv, hnil.unmoved hR h₁⟩
    · exact wp_closeRound_abreast hL (settleBet round) (· == .RESOLVED)
        (fun now => { status := .SETTLED, settledAt := some now }) h₁.rely.inv
        (hnil.unmoved hR h₁) fun b f₂ s₂ hs₂ h₂ => settleBet_abreast hL hs₂ h₂

/-- Nor does `voidRound`. -/
theorem voidRound_abreast {roundId : Uuid} (hs : R.inv s) (hf : f.pending = []) :
    wp database R trackedTerms (voidRound roundId) f s fun _ _ _ => True := by
  have hR := hL.overlay.lax.regular
  refine wp_mono (fun _ _ _ _ => trivial) (wp_transaction_abreast ?_)
  have hnil : InStep R none f s := inStep_nil hf
  refine wp_thenUnmoved hL Within.selectForLock hs (fun found f₁ s₁ h₁ => ?_)
    fun _ _ _ => endsInStep_error
  cases found with
  | none => exact wp_pure fun _ _ => ⟨h₁.rely.inv, hnil.unmoved hR h₁⟩
  | some round =>
    dsimp only
    split
    · exact wp_pure fun _ _ => ⟨h₁.rely.inv, hnil.unmoved hR h₁⟩
    · exact wp_closeRound_abreast hL refundBet (fun _ => true)
        (fun now => { status := .VOIDED, settledAt := some now, seedRevealed := some round.seed })
        h₁.rely.inv (hnil.unmoved hR h₁) fun b f₂ s₂ hs₂ h₂ => refundBet_abreast hL hs₂ h₂

/-- A call that moves nothing. -/
theorem unmoved_tracks {p : Action α}
    (hp : p.Writes (fun _ => []) Unmoved (fun w => w.isDraw = true) f.held)
    (hf : f.pending = []) : wp database R trackedTerms p f s fun _ _ _ => True := by
  refine wp_mono (fun _ _ _ _ => trivial) (hL.overlay.untouched (fun s rows hrows => ?_) hp ?_)
  · have hnil : Abreast none s ([] ++ rows) := Abreast.nil.unmoved hrows
    exact .inl hnil
  · rw [hf]
    exact List.forall_mem_nil _

/-- Nor does a tick. -/
theorem tickGame_abreast {crypto : Crypto} {game : GameKind} (hf : f.pending = []) :
    wp database R trackedTerms (tickGame config crypto game) f s fun _ _ _ => True := by
  have hN : ∀ w, (fun _ : Write => ([] : List (LockKey × LockMode))) w ⊆ needs w :=
    fun _ => List.nil_subset _
  refine wp_bind.2 (wp_selectOnward fun f₁ s₁ h₁ => onValue_ok ?_)
  have hf₁ : f₁.pending = [] := h₁.still.trans hf
  have hs₁ := h₁.rely.inv
  cases liveRoundOf game (f₁.view database s₁) with
  | none =>
    refine wp_bind.2 (wp_mono (fun r _ _ _ => ?_) (unmoved_tracks hL (openRoundIfDue_writes hN
      (fun _ => unmoved_aside (by simp [Write.table]))
      (fun _ => unmoved_aside (by simp [Write.table]))
      (fun _ => unmoved_notify (by simp)) rfl) hf₁))
    cases r with
    | ok id => trivial
    | error e => trivial
  | some live =>
    refine wp_bind.2 (wp_read fun x => onValue_ok ?_)
    dsimp only
    cases live.status with
    | OPEN =>
      dsimp only
      split
      · exact unmoved_tracks hL (lockRound_writes hN (fun _ => unmoved_notify (by simp))
          fun _ _ => unmoved_aside (by simp [Write.table])) hf₁
      · exact wp_pure trivial
    | LOCKED =>
      exact unmoved_tracks hL (startRound_writes hN (fun _ => unmoved_notify (by simp))
        fun _ _ => unmoved_aside (by simp [Write.table])) hf₁
    | RUNNING =>
      cases live.startedAt with
      | none => exact wp_pure trivial
      | some startedAt =>
        dsimp only
        split
        · exact voidRound_abreast hL hs₁ hf₁
        · split
          · exact unmoved_tracks hL (resolveRound_writes hN (fun _ => unmoved_notify (by simp))
              fun _ _ => unmoved_aside (by simp [Write.table])) hf₁
          · exact wp_pure trivial
    | RESOLVED => exact settleRound_abreast hL hs₁ hf₁
    | SETTLED => exact wp_pure trivial
    | VOIDED => exact wp_pure trivial

/-- What every call commits is told of where it is moved. -/
theorem call_tracks {crypto : Crypto} (c : Call) (hs : R.inv s) :
    wp database R trackedTerms (program config crypto c) {} s fun _ _ _ => True := by
  have hN : ∀ w, (fun _ : Write => ([] : List (LockKey × LockMode))) w ⊆ needs w :=
    fun _ => List.nil_subset _
  have hreply : ∀ {γ : Type} {g : γ → Reply} {p : Action γ},
      (wp database R trackedTerms p {} s fun _ _ _ => True) →
        wp database R trackedTerms (g <$> p) {} s fun _ _ _ => True :=
    fun h => wp_map (wp_mono (fun _ _ _ _ => trivial) h)
  have hnotify : ∀ roundId, Unmoved (.notify (.roundState roundId)) :=
    fun _ => unmoved_notify (by simp)
  have hupdate : ∀ roundId u, Unmoved (.updateRound roundId u) :=
    fun _ _ => unmoved_aside (by simp [Write.table])
  have hinsert : ∀ t, Unmoved (.insertToken t) := fun _ => unmoved_aside (by simp [Write.table])
  have hrevoke : ∀ id u, Unmoved (.updateToken id u) :=
    fun _ _ => unmoved_aside (by simp [Write.table])
  cases c with
  | register dto =>
    -- the grant goes to a wallet that nobody was told of
    refine wp_mono (fun _ _ _ _ => trivial) (hL.overlay.untouched (fun s rows hrows => .inr ?_)
      (Writes.map register_writes) (List.forall_mem_nil _))
    exact fun w hw => ⟨tables_ne (hrows w hw) (by simp), tables_ne (hrows w hw) (by simp)⟩
  | login dto => exact unmoved_tracks hL (Writes.map (login_writes hN hinsert)) rfl
  | refresh rawToken => exact unmoved_tracks hL (Writes.map (refresh_writes hN hinsert hrevoke)) rfl
  | logout rawToken => exact unmoved_tracks hL (Writes.map (logout_writes hN hrevoke)) rfl
  | placeBet input => exact hreply (placeBet_abreast hL hs rfl)
  | cashOut input => exact hreply (cashOut_abreast hL hs rfl)
  | openRoundIfDue game =>
    exact unmoved_tracks hL (Writes.map (openRoundIfDue_writes hN
      (fun _ => unmoved_aside (by simp [Write.table]))
      (fun _ => unmoved_aside (by simp [Write.table])) hnotify rfl)) rfl
  | lockRound roundId =>
    exact unmoved_tracks hL (Writes.map (lockRound_writes hN hnotify fun u _ => hupdate _ u)) rfl
  | startRound roundId =>
    exact unmoved_tracks hL (Writes.map (startRound_writes hN hnotify fun u _ => hupdate _ u)) rfl
  | resolveRound roundId =>
    exact unmoved_tracks hL (Writes.map (resolveRound_writes hN hnotify fun u _ => hupdate _ u)) rfl
  | settleRound roundId => exact hreply (settleRound_abreast hL hs rfl)
  | voidRound roundId => exact hreply (voidRound_abreast hL hs rfl)
  | tickGame game => exact hreply (tickGame_abreast hL rfl)

end

/-! ## The whole system -/

section
variable {config : Config} {crypto : Crypto}

/-- The announcements watched over the books: every call keeps its terms. -/
theorem tracked_vigil : Vigil database (books config) Calm UpToDate (program config crypto)
    (terms config) fun _ => trackedTerms where
  guards := escrow_guards config
  commits hs hold h htracks := by
    obtain ⟨es, rfl, hdone, -⟩ := h
    exact hold.after hs hdone htracks
  draws _ hold h _ := by
    rcases h with rfl | rfl <;> exact hold
  start c _ hs hold _ := call_tracks (books_lookout config) c ⟨hs, hold⟩

/-- In every state reached, the balance that a user was last told is the balance of his wallet:
whatever ran at the same time, and in whatever order it was committed. -/
theorem reachable_upToDate {w : System} (h : Reaches config crypto w) {userId : Uuid} {n : ℤ}
    (hn : lastTold w.db.delivered userId = some n) :
    ∃ wallet, w.db.walletOf userId = some wallet ∧ w.db.balanceOf wallet = n := by
  have hadmits : ∀ (w : System) (e : Event Inputs Call), Admits (terms config) w e ∧
      Admits (fun _ => trackedTerms) w e := by
    intro w e
    cases e with
    | start c => exact ⟨trivial, trivial⟩
    | run i x => exact ⟨fun _ _ => trivial, fun _ _ => trivial⟩
    | kill i => exact ⟨trivial, trivial⟩
  have hstart : UpToDate migrated := fun _ _ h => by cases h
  have hwatched := World.Watched.run (system_verified config crypto) tracked_vigil
    (fun w e _ => hadmits w e) h (.idle (migrated_consistent config) hstart)
  exact hwatched.kept userId n hn

end

/-- The last of the five balances that the user was told is the one in his wallet. -/
theorem reachable_upToDate_smallGame :
    lastTold (executed smallGame).db.delivered (uuidAt 2) = some 100000 ∧
      ∃ wallet, (executed smallGame).db.walletOf (uuidAt 2) = some wallet ∧
        (executed smallGame).db.balanceOf wallet = 100000 :=
  have hlast : lastTold (executed smallGame).db.delivered (uuidAt 2) = some 100000 := by
    decide +kernel
  ⟨hlast, reachable_upToDate (reaches_executed smallGame) hlast⟩

end Tessera
