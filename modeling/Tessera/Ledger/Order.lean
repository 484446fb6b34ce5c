import Tessera.Ledger.Alone
import Tessera.Ledger.Balanced
import Tessera.Ledger.Sequence

/-!
# The order of the legs

A posting moves the balances leg by leg, after a stable sort by account, and the trigger looks at
every intermediate balance.  So the legs of different accounts may be given in any order, but a
debit of an account before its credit is not the same as after it.

* `legsOf`, `Affordable` — the legs of one account, and its running balances;
* `accepts_iff` — what the database accepts, account by account;
* `Ranged` — the balances fit their column;
* `posting_order` — what the order of the legs decides, and what it does not.

Source: `src/src/ledger/ledger.service.ts` `postInTransaction`,
`migrations/1757900000000_initial-ledger.sql` `assert_balance_non_negative`.
-/

namespace Tessera

open Relational Transactions Transactions.Program

/-! ## The legs of one account -/

/-- The legs of an account, in order. -/
def legsOf (postings : List Posting) (id : Uuid) : List ℤ :=
  amounts (postings.filter fun p => decide (p.accountId = id))

/-- The net amount of an account is the sum of its legs. -/
theorem net_eq_sum (postings : List Posting) (id : Uuid) :
    net postings id = (legsOf postings id).sum := by
  unfold net legsOf amounts
  rw [List.sum_map_ite]
  simp

/-- The stable sort by account keeps the legs of each account in order. -/
theorem filter_ordered (postings : List Posting) (id : Uuid) :
    (ordered postings).filter (fun p => decide (p.accountId = id)) =
      postings.filter fun p => decide (p.accountId = id) := by
  have hsorted : (postings.filter fun p => decide (p.accountId = id)).Pairwise
      fun a b => a.accountId ≤ b.accountId := by
    refine List.pairwise_of_forall_mem_list fun a ha b hb => ?_
    have hida : a.accountId = id := of_decide_eq_true (List.mem_filter.1 ha).2
    have hidb : b.accountId = id := of_decide_eq_true (List.mem_filter.1 hb).2
    rw [hida, hidb]
  have hsub := (List.sublist_insertionSort hsorted List.filter_sublist).filter
    fun p : Posting => decide (p.accountId = id)
  rw [List.filter_filter] at hsub
  simp only [Bool.and_self] at hsub
  refine (hsub.eq_of_length ?_).symm
  exact ((ordered_perm postings).filter _).length_eq.symm

/-- Every running balance of an account is allowed. -/
def Affordable (v : Db) (id : Uuid) (legs : List ℤ) : Prop :=
  ∀ done amount rest, legs = done ++ amount :: rest → Fits v id (v.balanceOf id + done.sum + amount)

/-- The accounts of a list of postings are there. -/
def Named (v : Db) (postings : List Posting) : Prop :=
  ∀ p ∈ postings, (v.account p.accountId).isSome = true ∧ (v.balance p.accountId).isSome = true

/-- What the database accepts, account by account. -/
theorem accepts_iff (v : Db) (postings : List Posting) :
    Accepts v postings ↔ (∀ p ∈ postings, p.amount.minor ≠ 0) ∧ Named v postings ∧
      ∀ id, Affordable v id (legsOf postings id) := by
  constructor
  · rintro ⟨hamount, haccount, hpayable⟩
    refine ⟨hamount, fun p hp => ⟨haccount p hp, ?_⟩, ?_⟩
    · obtain ⟨before, after, hsplit⟩ := List.append_of_mem (mem_ordered.2 hp)
      exact (hpayable before p after hsplit).row
    · intro id done amount rest hlegs
      -- the leg is found again in the order of the updates
      unfold legsOf amounts at hlegs
      rw [← filter_ordered, List.map_eq_append_iff] at hlegs
      obtain ⟨l₁, l₂, hfilter, rfl, hrest⟩ := hlegs
      obtain ⟨p, l₃, rfl, rfl, -⟩ := List.map_eq_cons_iff.1 hrest
      obtain ⟨m₁, m₂, hordered, hm₁, hm₂⟩ := List.filter_eq_append_iff.1 hfilter
      obtain ⟨skipped, after, rfl, hskipped, hp, -⟩ := List.filter_eq_cons_iff.1 hm₂
      have hid : p.accountId = id := of_decide_eq_true hp
      have hnet : net (m₁ ++ skipped) id = (l₁.map fun p => p.amount.minor).sum := by
        have hnone : net skipped id = 0 :=
          net_eq_zero fun q hq hqid => hskipped q hq (decide_eq_true hqid)
        rw [net_append, hnone, add_zero, net_eq_sum]
        unfold legsOf amounts
        rw [hm₁]
      have hpay := (hpayable (m₁ ++ skipped) p after (by rw [hordered, List.append_assoc])).fits
      rw [hid, hnet] at hpay
      exact hpay
  · rintro ⟨hamount, hnamed, haffordable⟩
    refine ⟨hamount, fun p hp => (hnamed p hp).1, fun before p after hsplit => ?_⟩
    have hp : p ∈ postings := mem_ordered.1 (by rw [hsplit]; simp)
    have hlegs : legsOf postings p.accountId =
        legsOf before p.accountId ++ p.amount.minor :: legsOf after p.accountId := by
      have hhead : (p :: after).filter (fun q => decide (q.accountId = p.accountId)) =
          p :: after.filter fun q => decide (q.accountId = p.accountId) :=
        List.filter_cons_of_pos (decide_eq_true rfl)
      unfold legsOf amounts
      rw [← filter_ordered, hsplit, List.filter_append, List.map_append, hhead, List.map_cons]
    have hfits := haffordable p.accountId _ _ _ hlegs
    rw [← net_eq_sum] at hfits
    exact ⟨(hnamed p hp).2, hfits⟩

/-! ## Legs of one sign -/

/-- No leg of an account takes back what another has given. -/
def OneSign (legs : List ℤ) : Prop := (∀ n ∈ legs, 0 ≤ n) ∨ ∀ n ∈ legs, n ≤ 0

/-- Between two balances that are allowed every balance is. -/
theorem Fits.between {v : Db} {id : Uuid} {m n k : ℤ} (hm : Fits v id m) (hn : Fits v id n)
    (h : (m ≤ k ∧ k ≤ n) ∨ (n ≤ k ∧ k ≤ m)) : Fits v id k := by
  have hrange := hm.range
  have hrange' := hn.range
  unfold inBigint at hrange hrange'
  rw [decide_eq_true_eq] at hrange hrange'
  refine ⟨?_, fun a ha hkind => ?_⟩
  · unfold inBigint
    rw [decide_eq_true_eq]
    omega
  · have hpos := hm.funded a ha hkind
    have hpos' := hn.funded a ha hkind
    omega

/-- With legs of one sign only the last balance matters. -/
theorem OneSign.affordable_iff {v : Db} {id : Uuid} {legs : List ℤ} (h : OneSign legs)
    (hnow : Fits v id (v.balanceOf id)) :
    Affordable v id legs ↔ Fits v id (v.balanceOf id + legs.sum) := by
  constructor
  · intro hall
    rcases List.eq_nil_or_concat legs with rfl | ⟨done, last, rfl⟩
    · simpa using hnow
    · have hlast := hall done last [] (by simp)
      rw [add_assoc] at hlast
      simpa using hlast
  · rintro hlast done amount rest rfl
    refine hnow.between hlast ?_
    rw [List.sum_append, List.sum_cons]
    rcases h with hpos | hneg
    · have hdone : 0 ≤ done.sum := List.sum_nonneg fun n hn => hpos n (by simp [hn])
      have hrest : 0 ≤ rest.sum := List.sum_nonneg fun n hn => hpos n (by simp [hn])
      have hamount := hpos amount (by simp)
      omega
    · have hdone : done.sum ≤ 0 := by
        simpa using List.sum_le_card_nsmul done 0 fun n hn => hneg n (by simp [hn])
      have hrest : rest.sum ≤ 0 := by
        simpa using List.sum_le_card_nsmul rest 0 fun n hn => hneg n (by simp [hn])
      have hamount := hneg amount (by simp)
      omega

/-! ## Balances fit their column -/

/-- The balances fit their column. -/
def Ranged (s : Db) : Prop := ∀ id, inBigint (s.balanceOf id) = true

section
variable {s : Db} {p : Posted}

/-- The checks that a posting has passed, account by account. -/
theorem PostChecked.last_in_range (h : PostChecked p s) {id : Uuid} {q : Posting}
    (hq : q ∈ p.postings) (hid : q.accountId = id) :
    inBigint (s.balanceOf id + net p.postings id) = true := by
  have hmem : q ∈ (ordered p.postings).filter fun r => decide (r.accountId = id) :=
    List.mem_filter.2 ⟨mem_ordered.2 hq, decide_eq_true hid⟩
  rcases List.eq_nil_or_concat ((ordered p.postings).filter fun r => decide (r.accountId = id)) with
    hnil | ⟨earlier, last, hsplit⟩
  · rw [hnil] at hmem
    exact absurd hmem List.not_mem_nil
  · -- the last leg of the account in the order of the updates
    rw [List.concat_eq_append] at hsplit
    obtain ⟨m₁, m₂, hordered, hm₁, hm₂⟩ := List.filter_eq_append_iff.1 hsplit
    obtain ⟨skipped, after, rfl, hskipped, hlast, hafter⟩ := List.filter_eq_cons_iff.1 hm₂
    have hlastid : last.accountId = id := of_decide_eq_true hlast
    have hnone : net after id = 0 := by
      refine net_eq_zero fun r hr hrid => ?_
      exact List.filter_eq_nil_iff.1 hafter r hr (decide_eq_true hrid)
    have hrange := h.range (m₁ ++ skipped) last after (by rw [hordered, List.append_assoc])
    rw [hlastid] at hrange
    have hnet : net p.postings id = net (m₁ ++ skipped) id + last.amount.minor := by
      rw [← net_perm (ordered_perm p.postings), hordered, ← List.append_assoc, net_append, net_cons,
        if_pos hlastid, hnone, add_zero]
    rw [hnet, ← add_assoc]
    exact hrange

/-- A posting that has been checked leaves every balance in range. -/
theorem Ranged.posted (h : Ranged s) (hchecked : PostChecked p s) : Ranged (s.posted p) := by
  intro id
  rw [Db.balanceOf_posted hchecked.balance]
  by_cases hnamed : ∃ q ∈ p.postings, q.accountId = id
  · obtain ⟨q, hq, hid⟩ := hnamed
    exact hchecked.last_in_range hq hid
  · have hzero : net p.postings id = 0 := net_eq_zero fun q hq hid => hnamed ⟨q, hq, hid⟩
    rw [hzero, add_zero]
    exact h id

/-- So does a run of the ledger. -/
theorem Ranged.run (h : LedgerRun migrated s) : Ranged s := by
  induction h with
  | start =>
    intro id
    rw [migrated_balanceOf]
    decide
  | @call s c xs _ ih =>
    refine (call_trail c xs s).induct (P := Ranged) ih (fun {s rows} hs hc => ?_)
      fun {s row} hs hd => ?_
    · have hnew : ∀ {a : Account}, s.balance a.id = none → Ranged (s.apply (.insertAccount a)) := by
        intro a hrow id
        rw [Db.balanceOf_insertAccount hrow]
        exact hs id
      cases hc with
      | user u => exact hs
      | account _ hrow => exact hnew hrow
      | wallet _ hrow => exact hnew hrow
      | posting _ _ hchecked _ =>
        rw [applyAll_posted]
        exact hs.posted hchecked
    · obtain rfl : row = .drawEntryId := hd
      exact hs

/-! ## A posting by itself -/

variable {input : PostInput} {xs : ℕ → Inputs}

/-- The posting runs to its end by itself, its `n`-th statement reading `xs n`, and commits. -/
def PostInput.commits (input : PostInput) (xs : ℕ → Inputs) (s : Db) : Bool :=
  ((post input).finish database xs {} s).1.isOk

/-- The committed state afterwards. -/
def PostInput.after (input : PostInput) (xs : ℕ → Inputs) (s : Db) : Db :=
  ((post input).finish database xs {} s).2.2

/-- Every id that is drawn on the way names no journal row yet. -/
def PostInput.Draws (input : PostInput) (xs : ℕ → Inputs) (s : Db) : Prop :=
  (post input).Reads database FreshId xs {} s

instance : Decidable (input.Draws xs s) :=
  inferInstanceAs (Decidable ((post input).Reads database FreshId xs {} s))

/-- The deferred trigger does not look at the counter of the entries. -/
theorem Alike.deferred {s s' : Db} (h : Alike s s') {rows : List Write} :
    s'.deferred rows = .ok () ↔ s.deferred rows = .ok () := by
  rw [h.eq, Db.deferred_eq_ok, Db.deferred_eq_ok]
  exact Iff.rfl

/-- A posting commits exactly when it is balanced and the database accepts its legs. -/
theorem ends_post
    (hjournal : ∀ e ∈ s.entries, e.transactionId ∈ s.transactions.map Transaction.id) :
    ends database FreshId (post input) {} s fun r _ s' =>
      (r.isOk = true ↔ assertBalanced input = .ok () ∧ (amounts input.postings).sum = 0 ∧
        Accepts s input.postings) ∧
      (r.isOk = true → ∀ id, s'.balanceOf id = s.balanceOf id + net input.postings id) := by
  have hfail : ∀ {e : AppError}, (Except.error e : Except AppError PostedTransaction).isOk = true →
      False := fun h => Bool.false_ne_true h
  refine ends_bind.2 (ends_check ?_)
  cases hbal : assertBalanced input with
  | error e => exact ⟨iff_of_false hfail fun h => by simp at h, fun h => (hfail h).elim⟩
  | ok u =>
    have hlong := ((assertBalanced_iff input).1 hbal).1
    refine thenEnds_ok (ends_transaction (ends_postInTransaction (fun _ _ h => h) ?_ ?_))
    · intro p r f' s' _ _ hpostings hmatch hfresh hid haccepts hwrote
      unfold FreshId at hfresh
      rw [hid] at hfresh
      have hpending : f'.pending = p.rows := hwrote.pending
      have hview : Alike (s.posted p) (f'.view database s') := by
        rw [← applyAll_posted]
        exact hwrote.view
      have hentries : p.entries.length = input.postings.length := by
        rw [← List.length_map Entry.amount, hmatch.amounts, List.length_map, hpostings]
      have hsum : (p.entries.map Entry.amount).sum = (amounts input.postings).sum := by
        rw [hmatch.amounts, hpostings]
        rfl
      have hbalanced := Db.posted_balanced_iff hjournal hmatch hfresh
      rw [hentries, hsum, and_iff_right hlong] at hbalanced
      have hdeferred : database.deferred (f'.view database s') f'.pending = .ok () ↔
          (amounts input.postings).sum = 0 := by
        rw [← hbalanced, hpending]
        refine hview.deferred.trans ?_
        constructor
        · intro hd
          refine Posted.balanced hmatch hd ?_
          intro hnil
          rw [hpostings] at hnil
          rw [hnil] at hlong
          exact absurd hlong (by decide)
        · intro hok
          refine Db.deferred_eq_ok.2 fun e he => ?_
          have hmem : e ∈ p.entries := by simpa [Posted.rows] using he
          rw [hmatch.entry hmem]
          exact hok
      refine ⟨fun hd => ⟨iff_of_true rfl ⟨rfl, hdeferred.1 hd, haccepts⟩, fun _ id => ?_⟩,
        fun e hd => ⟨iff_of_false hfail fun h => ?_, fun h => (hfail h).elim⟩⟩
      · rw [hview.balanceOf, Db.balanceOf_posted ?_, hpostings]
        intro q hq
        rw [hpostings] at hq
        exact (((accepts_iff s input.postings).1 haccepts).2.1 q hq).2
      · rw [hdeferred.2 h.2.1] at hd
        cases hd
    · intro e f' s' rows hrejects hwrote
      exact ⟨iff_of_false hfail fun h => hrejects h.2.2, fun h => (hfail h).elim⟩

/-- The order of the legs does not change their signs. -/
theorem OneSign.perm {legs legs' : List ℤ} (h : OneSign legs) (hperm : legs.Perm legs') :
    OneSign legs' :=
  h.imp (fun hpos n hn => hpos n (hperm.mem_iff.2 hn)) fun hneg n hn => hneg n (hperm.mem_iff.2 hn)

/-- The legs of an account are the same in another order of the postings. -/
theorem legsOf_perm {ps qs : List Posting} (h : ps.Perm qs) (id : Uuid) :
    (legsOf ps id).Perm (legsOf qs id) :=
  (h.filter _).map _

/-- Lists whose legs differ only where an account has legs of one sign. -/
theorem accepts_congr (hfits : ∀ id, Fits s id (s.balanceOf id)) {ps qs : List Posting}
    (hperm : ps.Perm qs) (hlegs : ∀ id, legsOf ps id = legsOf qs id ∨ OneSign (legsOf ps id)) :
    Accepts s ps → Accepts s qs := by
  rw [accepts_iff, accepts_iff]
  rintro ⟨hamount, hnamed, haffordable⟩
  refine ⟨fun p hp => hamount p (hperm.mem_iff.2 hp), fun p hp => hnamed p (hperm.mem_iff.2 hp),
    fun id => ?_⟩
  rcases hlegs id with heq | hsign
  · rw [← heq]
    exact haffordable id
  · have hlegs := legsOf_perm hperm id
    rw [(hsign.perm hlegs).affordable_iff (hfits id), ← hlegs.sum_eq,
      ← hsign.affordable_iff (hfits id)]
    exact haffordable id

/-- What the order of the legs decides, for lists that pass the check of the application: each leg
must leave its account a balance that is allowed, so only the order of the debits and credits of
one account matters; lists that commit give the same balances. -/
theorem posting_order (h : LedgerRun migrated s) {a b : PostInput}
    (hperm : a.postings.Perm b.postings) (ha : assertBalanced a = .ok ())
    (hb : assertBalanced b = .ok ()) (xs ys : ℕ → Inputs) (hxs : a.Draws xs s)
    (hys : b.Draws ys s) :
    (a.commits xs s = true ↔ (amounts a.postings).sum = 0 ∧ Named s a.postings ∧
      ∀ id, Affordable s id (legsOf a.postings id)) ∧
    ((∀ id, OneSign (legsOf a.postings id)) → (a.commits xs s = true ↔
      (amounts a.postings).sum = 0 ∧ Named s a.postings ∧
        ∀ id, Fits s id (s.balanceOf id + net a.postings id))) ∧
    ((∀ id, legsOf a.postings id = legsOf b.postings id ∨ OneSign (legsOf a.postings id)) →
      (a.commits xs s = true ↔ b.commits ys s = true)) ∧
    (a.commits xs s = true → b.commits ys s = true →
      ∀ id, (a.after xs s).balanceOf id = (b.after ys s).balanceOf id) := by
  have hkept := migrated_kept.run h
  have hfits : ∀ id, Fits s id (s.balanceOf id) := by
    refine fun id => ⟨Ranged.run h id, fun account hid hkind => ?_⟩
    rw [← show account.id = id from lookup_key hid]
    exact hkept.funded account (lookup_mem hid) ((AccountKind.neverNegative_iff _).1 hkind)
  obtain ⟨hiff, hmoves⟩ := finish_of_ends (ends_post hkept.journal) hxs
  obtain ⟨hiff', hmoves'⟩ := finish_of_ends (ends_post hkept.journal) hys
  have hcommits : a.commits xs s = true ↔ (amounts a.postings).sum = 0 ∧ Named s a.postings ∧
      ∀ id, Affordable s id (legsOf a.postings id) := by
    have hamounts := ((assertBalanced_iff a).1 ha).2.2
    refine hiff.trans ?_
    rw [accepts_iff]
    exact ⟨fun hok => ⟨hok.2.1, hok.2.2.2⟩, fun hok => ⟨ha, hok.1, hamounts, hok.2⟩⟩
  refine ⟨hcommits, fun hsign => ?_, fun hlegs => ?_, fun hok hok' id => ?_⟩
  · rw [hcommits]
    refine and_congr_right fun _ => and_congr_right fun _ => forall_congr' fun id => ?_
    rw [(hsign id).affordable_iff (hfits id), net_eq_sum]
  · refine hiff.trans (Iff.trans ?_ hiff'.symm)
    rw [ha, hb, show (amounts a.postings).sum = (amounts b.postings).sum from
      (hperm.map _).sum_eq]
    refine and_congr_right fun _ => and_congr_right fun _ =>
      ⟨accepts_congr hfits hperm hlegs, accepts_congr hfits hperm.symm fun id => ?_⟩
    rcases hlegs id with heq | hsign
    · exact .inl heq.symm
    · exact .inr (hsign.perm (legsOf_perm hperm id))
  · have hbalance := hmoves hok id
    have hbalance' := hmoves' hok' id
    rw [← net_perm hperm] at hbalance'
    exact hbalance.trans hbalance'.symm

end

/-! ## A debit before its credit -/

/-- The house takes 500 from a wallet, which is also given 1000 and charged 1500. -/
def charged (reversed : Bool) : PostInput where
  kind := .BET_PLACED
  reference := none
  postings :=
    if reversed then
      [⟨uuidAt 10, ⟨1000, rfl⟩⟩, ⟨uuidAt 10, ⟨-1500, rfl⟩⟩, ⟨houseId, ⟨500, rfl⟩⟩]
    else
      [⟨uuidAt 10, ⟨-1500, rfl⟩⟩, ⟨uuidAt 10, ⟨1000, rfl⟩⟩, ⟨houseId, ⟨500, rfl⟩⟩]

/-- The readings of one more posting. -/
def moreReadings (n : ℕ) : Inputs := readingAt (60 + n) 0

/-- The posting that commits, its house leg moved to the front. -/
def chargedFirst : PostInput where
  kind := .BET_PLACED
  reference := none
  postings :=
    [⟨houseId, ⟨500, rfl⟩⟩, ⟨uuidAt 10, ⟨1000, rfl⟩⟩, ⟨uuidAt 10, ⟨-1500, rfl⟩⟩]

theorem charged_perm : (charged true).postings.Perm chargedFirst.postings :=
  (List.perm_append_comm : ([_, _] ++ [_]).Perm ([_] ++ [_, _]))

theorem smallLedger_run : LedgerRun migrated smallLedger :=
  .call _ _ (.call _ _ (.call _ _ (.call _ _ .start)))

/-- Moving the house leg leaves the legs of each account in their order. -/
theorem charged_legs (id : Uuid) :
    legsOf (charged true).postings id = legsOf chargedFirst.postings id := by
  have hne : houseId ≠ uuidAt 10 := by decide
  unfold legsOf charged chargedFirst
  by_cases hhouse : houseId = id
  · subst hhouse
    simp [hne.symm]
  · simp [List.filter_cons, hhouse]

/-- With the house leg moved to the front the posting is accepted all the same, and gives every
account the same balance. -/
theorem posting_order_charged :
    (charged true).commits moreReadings smallLedger = true ∧
      ((charged true).commits moreReadings smallLedger = true ↔
        chargedFirst.commits moreReadings smallLedger = true) ∧
      (∀ id, Affordable smallLedger id (legsOf (charged true).postings id)) ∧
      ∀ id, ((charged true).after moreReadings smallLedger).balanceOf id =
        (chargedFirst.after moreReadings smallLedger).balanceOf id := by
  obtain ⟨hcondition, -, hsame, hbalances⟩ := posting_order smallLedger_run charged_perm
    (by decide +kernel) (by decide +kernel) moreReadings moreReadings (by decide +kernel)
    (by decide +kernel)
  have hiff := hsame fun id => .inl (charged_legs id)
  have hcommits : (charged true).commits moreReadings smallLedger = true := by decide +kernel
  exact ⟨hcommits, hiff, (hcondition.1 hcommits).2.2, hbalances hcommits (hiff.1 hcommits)⟩

/-- The same three legs, the debit before the credit: the balance would be negative in between. -/
theorem debit_before_credit :
    LedgerRun migrated smallLedger ∧ (charged false).postings.Perm (charged true).postings ∧
      assertBalanced (charged false) = .ok () ∧ assertBalanced (charged true) = .ok () ∧
      (charged false).commits moreReadings smallLedger = false ∧
      (charged true).commits moreReadings smallLedger = true := by
  refine ⟨smallLedger_run, List.Perm.swap _ _ _, ?_⟩
  decide +kernel

end Tessera
