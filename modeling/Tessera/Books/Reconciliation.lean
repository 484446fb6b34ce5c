import Tessera.Books.System

/-!
# The ledger agrees with the bets

In every committed state that the system reaches, the balances of the system accounts and of
every wallet follow from the rows of the bets and from the grants in the journal.

* `Db.stakes`, `Db.payouts`, `Db.granted` — the sums in question;
* `Reconciled` — the four equations;
* `reachable_reconciled` — they hold in every reachable state.
-/

namespace Tessera

open Relational Transactions

/-! ## The sums -/

/-- The stakes of the bets that pass a test. -/
def Db.stakes (s : Db) (p : Bet → Prop) [DecidablePred p] : ℤ :=
  ((s.bets.filter fun b => decide (p b)).map fun b => b.stakeMinor.minor).sum

/-- The payouts of the bets that pass a test. -/
def Db.payouts (s : Db) (p : Bet → Prop) [DecidablePred p] : ℤ :=
  ((s.bets.filter fun b => decide (p b)).map Bet.paid).sum

/-- What a journal row hands out: its positive entries. -/
def Db.granted (s : Db) (t : Transaction) : ℤ :=
  (((s.postings t.id).map Entry.amount).filter fun amount => decide (0 < amount)).sum

/-- The grants in the journal that refer to a user. -/
def Db.grantsOf (s : Db) (userId : Uuid) : List Transaction :=
  s.transactions.filter fun t => t.isGrant && t.reference == some ⟨"user", userId⟩

/-- The balances, from the bets and the grants. -/
structure Reconciled (s : Db) : Prop where
  escrow : s.balanceOf escrowId = s.stakes fun b => b.status = .ACTIVE
  wallet : ∀ u ∈ s.users, ∃ w grant, s.walletOf u.id = some w ∧ s.grantsOf u.id = [grant] ∧
    s.balanceOf w = s.granted grant - s.stakes (fun b => b.userId = u.id) +
      s.payouts fun b => b.userId = u.id ∧ b.status ≠ .ACTIVE
  house : s.balanceOf houseId = s.stakes (fun b => b.status = .WON ∨ b.status = .LOST) -
    s.payouts fun b => b.status = .WON ∨ b.status = .LOST
  mint : s.balanceOf mintId = -((s.transactions.filter Transaction.isGrant).map s.granted).sum
  paid : ∀ b ∈ s.bets, b.status ≠ .ACTIVE → b.payoutMinor.isSome = true

section
variable {config : Config} {crypto : Crypto} {s : Db}

/-- The stakes of some bets, as a sum over all bets. -/
theorem Db.stakes_eq_total (s : Db) (p : Bet → Prop) [DecidablePred p] :
    s.stakes p = s.total fun b => if p b then b.stakeMinor.minor else 0 := by
  unfold Db.stakes Db.total
  rw [List.sum_map_ite]
  simp

/-- The payouts of some bets, as a sum over all bets. -/
theorem Db.payouts_eq_total (s : Db) (p : Bet → Prop) [DecidablePred p] :
    s.payouts p = s.total fun b => if p b then b.paid else 0 := by
  unfold Db.payouts Db.total
  rw [List.sum_map_ite]
  simp

/-- Sums with equal shares are equal. -/
theorem Db.total_congr {f g : Bet → ℤ} (h : ∀ b ∈ s.bets, f b = g b) : s.total f = s.total g :=
  congrArg List.sum (List.map_congr_left h)

/-- A sum of two shares. -/
theorem Db.total_add (s : Db) (f g : Bet → ℤ) :
    s.total (fun b => f b + g b) = s.total f + s.total g :=
  List.sum_map_add

/-- A difference of two shares. -/
theorem Db.total_sub (s : Db) (f g : Bet → ℤ) :
    s.total (fun b => f b - g b) = s.total f - s.total g := by
  unfold Db.total
  induction s.bets with
  | nil => rfl
  | cons b rest ih =>
    simp only [List.map_cons, List.sum_cons, ih]
    ring

/-! ## Bets -/

/-- The house keeps nothing of a bet that is refunded. -/
theorem Bet.Fits.kept {b : Bet} (h : b.Fits s) :
    b.kept = (if b.status = .WON ∨ b.status = .LOST then b.stakeMinor.minor else 0) -
      if b.status = .WON ∨ b.status = .LOST then b.paid else 0 := by
  have hvoided := h.voided
  unfold Bet.kept Bet.paid
  cases hstatus : b.status <;> simp_all

/-- Nothing has been paid out on an active bet. -/
theorem Bet.Fits.gained {b : Bet} (h : b.Fits s) (userId : Uuid) :
    b.gained userId =
      (if b.userId = userId ∧ b.status ≠ .ACTIVE then b.paid else 0) -
        if b.userId = userId then b.stakeMinor.minor else 0 := by
  have hactive := h.active
  unfold Bet.gained Bet.paid
  by_cases huser : b.userId = userId
  · by_cases hstatus : b.status = .ACTIVE <;> simp_all
  · simp [huser]

/-! ## Grants -/

/-- When a column of some rows is a list without repetition, one row has each of its values. -/
theorem filter_eq_singleton {α β : Type} [BEq β] [LawfulBEq β] {f : α → β} {rows : List α} {x : β}
    (hnodup : (rows.map f).Nodup) (hx : x ∈ rows.map f) :
    ∃ r ∈ rows, (rows.filter fun r => f r == x) = [r] := by
  induction rows with
  | nil => exact absurd hx List.not_mem_nil
  | cons a rows ih =>
    rw [List.map_cons, List.nodup_cons] at hnodup
    by_cases ha : f a = x
    · refine ⟨a, List.mem_cons_self, ?_⟩
      have hrest : (rows.filter fun r => f r == x) = [] := by
        refine List.filter_eq_nil_iff.2 fun r hr hrx => hnodup.1 ?_
        rw [ha, ← beq_iff_eq.1 hrx]
        exact List.mem_map_of_mem hr
      rw [List.filter_cons_of_pos (by simpa using ha), hrest]
    · have hx' : x ∈ rows.map f := by
        rcases List.mem_cons.1 hx with rfl | hx'
        · exact absurd rfl ha
        · exact hx'
      obtain ⟨r, hr, hfilter⟩ := ih hnodup.2 hx'
      refine ⟨r, List.mem_cons_of_mem _ hr, ?_⟩
      rwa [List.filter_cons_of_neg (by simpa using ha)]

/-- Each grant in the journal hands out the configured amount. -/
theorem Consistent.granted (h : Consistent config s) {t : Transaction}
    (ht : t ∈ s.transactions) (hgrant : t.isGrant = true) :
    s.granted t = config.signupGrantMinor := by
  have hpos := config.signupGrant_pos
  unfold Db.granted
  rw [h.journalled.legs t ht hgrant,
    List.filter_cons_of_neg (by simpa using hpos.le), List.filter_cons_of_pos (by simpa using hpos)]
  simp

/-- Each user has one grant. -/
theorem Consistent.grantsOf (h : Consistent config s) {u : User} (hu : u ∈ s.users) :
    ∃ grant, s.grantsOf u.id = [grant] ∧ s.granted grant = config.signupGrantMinor := by
  have hrefs := h.journalled.grants
  have hnodup : ((s.transactions.filter Transaction.isGrant).map
      Transaction.reference).Nodup := by
    rw [hrefs]
    have hids := h.keyed.users.map (f := fun id => some (⟨"user", id⟩ : Reference)) fun a b hab => by
      injection hab with hab
      injection hab
    rwa [List.map_map] at hids
  have hmem : some (⟨"user", u.id⟩ : Reference) ∈
      (s.transactions.filter Transaction.isGrant).map Transaction.reference := by
    rw [hrefs]
    exact List.mem_map.2 ⟨u, hu, rfl⟩
  obtain ⟨grant, hgrant, hfilter⟩ := filter_eq_singleton hnodup hmem
  obtain ⟨ht, hisGrant⟩ := List.mem_filter.1 hgrant
  refine ⟨grant, ?_, h.granted ht hisGrant⟩
  rw [← hfilter, List.filter_filter]
  exact List.filter_congr fun t _ => Bool.and_comm _ _

/-- All grants together. -/
theorem Consistent.grants (h : Consistent config s) :
    ((s.transactions.filter Transaction.isGrant).map s.granted).sum =
      config.signupGrantMinor * s.users.length := by
  have hlength : (s.transactions.filter Transaction.isGrant).length = s.users.length := by
    simpa using congrArg List.length h.journalled.grants
  have hconst : (s.transactions.filter Transaction.isGrant).map s.granted =
      (s.transactions.filter Transaction.isGrant).map fun _ => config.signupGrantMinor := by
    refine List.map_congr_left fun t ht => ?_
    obtain ⟨ht, hgrant⟩ := List.mem_filter.1 ht
    exact h.granted ht hgrant
  rw [hconst, List.map_const', List.sum_replicate, hlength, nsmul_eq_mul, mul_comm]

/-! ## The four equations -/

/-- Books that are consistent are reconciled. -/
theorem Consistent.reconciled (h : Consistent config s) : Reconciled s where
  escrow := by
    rw [h.balanced.escrow, Db.stakes_eq_total]
    rfl
  wallet u hu := by
    obtain ⟨w, hw⟩ := Option.isSome_iff_exists.1 (h.housed.owners u hu)
    obtain ⟨grant, hgrants, hgranted⟩ := h.grantsOf hu
    refine ⟨w, grant, hw, hgrants, ?_⟩
    have hgained := Db.total_congr fun b hb => (h.fits b hb).gained u.id
    rw [h.balanced.wallet u hu w hw, hgranted, hgained, Db.total_sub, ← Db.payouts_eq_total,
      ← Db.stakes_eq_total]
    ring
  house := by
    have hkept := Db.total_congr fun b hb => (h.fits b hb).kept
    rw [h.balanced.house, hkept, Db.total_sub, ← Db.payouts_eq_total, ← Db.stakes_eq_total]
  mint := by rw [h.balanced.mint, h.grants]
  paid b hb := (h.fits b hb).closed

/-- In every committed state that the system reaches the ledger agrees with the bets. -/
theorem reachable_reconciled {w : System} (h : Reaches config crypto w) : Reconciled w.db :=
  (reachable_consistent h).reconciled

end

theorem reachable_reconciled_smallGame :
    (executed smallGame).db.balances.map Balance.balance = [-100000, 300, -300, 100000] ∧
      (executed smallGame).db.bets.map Bet.status = [.WON, .LOST, .ACTIVE] ∧
      Reconciled (executed smallGame).db :=
  ⟨by decide +kernel, by decide +kernel, reachable_reconciled (reaches_executed smallGame)⟩

end Tessera
