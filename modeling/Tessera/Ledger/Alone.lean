import Tessera.Ledger.Rules
import Tessera.Transactions.Sequential

/-!
# A posting with nobody else at work

What `LedgerService.post` does when it runs to its end by itself: it succeeds exactly when the
database accepts the postings, and otherwise leaves the tables as they were.

* `Wrote` — what a session has written since some point of its transaction;
* `Fits`, `Payable`, `Accepts` — what the database checks, leg by leg in the order of the updates;
* `ends_postInTransaction` — the rule.
-/

namespace Tessera

open Relational Transactions Transactions.Program

/-- The id that is drawn names no journal row yet. -/
def FreshId (v : Db) (x : Inputs) : Prop := (v.transactions.any fun t => t.id == x.uuid) = false

instance (v : Db) (x : Inputs) : Decidable (FreshId v x) :=
  inferInstanceAs (Decidable (_ = false))

/-- What a session has written since some point, its transaction still open. -/
structure Wrote (f : Standing Db LockKey Write) (s : Db) (rows : List Write)
    (f' : Standing Db LockKey Write) (s' : Db) : Prop where
  pending : f'.pending = f.pending ++ rows
  alike : Alike s s'

section
variable {f f' f₀ : Standing Db LockKey Write} {s s' s₀ : Db} {rows : List Write}
variable {A : Db → Inputs → Prop}

/-- A session that has done nothing has written nothing. -/
theorem Wrote.refl (f : Standing Db LockKey Write) (s : Db) : Wrote f s [] f s :=
  ⟨(List.append_nil _).symm, .refl s⟩

/-- A read writes nothing. -/
theorem Wrote.saw (h : Wrote f₀ s₀ rows f s) (v : Db) : Wrote f₀ s₀ rows (f.saw v) s :=
  ⟨h.pending, h.alike⟩

/-- A lock writes nothing. -/
theorem Wrote.locked (h : Wrote f₀ s₀ rows f s) (key : LockKey) (mode : LockMode) (v : Db) :
    Wrote f₀ s₀ rows (f.locked key mode v) s :=
  ⟨h.pending, h.alike⟩

/-- Drawing an id writes nothing. -/
theorem Wrote.draw (h : Wrote f₀ s₀ rows f s) :
    Wrote f₀ s₀ rows f (database.apply s .drawEntryId) :=
  ⟨h.pending, h.alike.trans (.draw s)⟩

/-- One more write. -/
theorem Wrote.wrote (h : Wrote f₀ s₀ rows f s) (w : Write) :
    Wrote f₀ s₀ (rows ++ [w]) (f.wrote w) s := by
  refine ⟨?_, h.alike⟩
  show f.pending ++ [w] = _
  rw [h.pending, List.append_assoc]

/-- What the session sees: what it saw before, with what it has written. -/
theorem Wrote.view (h : Wrote f₀ s₀ rows f s) :
    Alike (database.applyAll (f₀.view database s₀) rows) (f.view database s) := by
  unfold Standing.view
  rw [h.pending, ← Database.applyAll_append]
  exact h.alike.applyAll _

/-- Wait for an entry of a unique index, with nobody else at work. -/
theorem ends_claim (h : Wrote f₀ s₀ rows f s) {key : LockKey} {taken : Db → Bool}
    {constraint : String} {Q : Post Db LockKey Write AppError Unit}
    (hfree : taken (f.view database s) = false →
      ∀ f', Wrote f₀ s₀ rows f' s → Q (.ok ()) f' s)
    (htaken : taken (f.view database s) = true →
      ∀ f', Wrote f₀ s₀ rows f' s → Q (.error (.uniqueViolation constraint)) f' s) :
    ends database A (claim key taken constraint) f s Q := by
  refine ends_bind.2 (ends_acquire (ends_ensure (fun hok => ?_) fun hbad => ?_))
  · exact hfree (by simpa using hok) _ (h.locked _ _ _)
  · exact htaken (by simpa using hbad) _ (h.locked _ _ _)

/-- A balance that the column and the trigger allow. -/
structure Fits (v : Db) (id : Uuid) (n : ℤ) : Prop where
  range : inBigint n = true
  funded : ∀ a, v.account id = some a → a.kind.neverNegative = true → 0 ≤ n

/-- What the database checks of one posting when its balance is updated, others before it. -/
structure Payable (v : Db) (before : List Posting) (p : Posting) : Prop where
  row : (v.balance p.accountId).isSome = true
  fits : Fits v p.accountId (v.balanceOf p.accountId + net before p.accountId + p.amount.minor)

/-- The database accepts a list of postings, up to the check of the sum. -/
structure Accepts (v : Db) (postings : List Posting) : Prop where
  amount : ∀ p ∈ postings, p.amount.minor ≠ 0
  account : ∀ p ∈ postings, (v.account p.accountId).isSome = true
  payable : ∀ before p after, ordered postings = before ++ p :: after → Payable v before p

/-- A balance moves if and only if it is there and accepts the amount. -/
theorem ends_updateBalance {t : Transaction} {entries : List Entry} {before : List Posting}
    {p : Posting} (h : Wrote f₀ s₀ (postRows t entries before) f s)
    {Q : Post Db LockKey Write AppError Unit}
    (hok : Payable (f₀.view database s₀) before p →
      ∀ f', Wrote f₀ s₀ (postRows t entries (before ++ [p])) f' s → Q (.ok ()) f' s)
    (herror : ∀ e f', ¬Payable (f₀.view database s₀) before p → f'.pending = f.pending →
      Q (.error e) f' s) :
    ends database A (updateBalance p) f s Q := by
  have hview := h.view
  generalize f₀.view database s₀ = v at hok herror hview
  have hbalance : (f.view database s).balance p.accountId =
      (v.balance p.accountId).map (Balance.add (net before p.accountId)) := by
    rw [hview.balance, postRows_balance]
  have haccount : (f.view database s).account p.accountId = v.account p.accountId := by
    rw [hview.account, postRows_account]
  unfold updateBalance
  refine ends_bind.2 (ends_selectForLock (fun hnone => ?_) fun row hrow => ?_)
  · refine herror _ _ (fun hpay => ?_) rfl
    rw [Option.map_eq_none_iff, hbalance, Option.map_eq_none_iff] at hnone
    have hsome := hpay.row
    rw [hnone] at hsome
    cases hsome
  · obtain ⟨b, hb, rfl⟩ := Option.map_eq_some_iff.1 hrow
    rw [hbalance] at hb
    obtain ⟨b₀, hb₀, rfl⟩ := Option.map_eq_some_iff.1 hb
    have hof : v.balanceOf p.accountId = b₀.balance := by
      unfold Db.balanceOf
      rw [hb₀]
      rfl
    have hsum : (b₀.add (net before p.accountId)).balance + p.amount.minor =
        v.balanceOf p.accountId + net before p.accountId + p.amount.minor := by
      rw [hof]
      rfl
    rw [haccount]
    refine thenEnds_ok ?_
    simp only [hsum]
    refine ends_bind.2 (ends_ensure (fun hin => ?_) fun hout => ?_)
    · refine thenEnds_ok (ends_bind.2 (ends_check ?_))
      cases hkind : assertBalanceNonNegative p.accountId
        ((v.account p.accountId).map Account.kind)
        (v.balanceOf p.accountId + net before p.accountId + p.amount.minor) with
      | error e =>
        obtain ⟨a, ha, hprot, hneg, -⟩ := assertBalanceNonNegative_error hkind
        refine herror e _ (fun hpay => ?_) rfl
        exact absurd (hpay.fits.funded a ha hprot) (not_le.2 hneg)
      | ok u =>
        refine thenEnds_ok (ends_put (hok ⟨by rw [hb₀]; rfl, hin, fun a ha hprot => ?_⟩ _ ?_))
        · exact assertBalanceNonNegative_ok hkind ha hprot
        · have hrows : postRows t entries (before ++ [p]) =
              postRows t entries before ++ [.addBalance p.accountId p.amount.minor] := by
            simp [postRows]
          rw [hrows]
          exact ((h.saw _).locked _ _ _).wrote _
    · refine herror _ _ (fun hpay => ?_) rfl
      rw [hpay.fits.range] at hout
      cases hout

/-- An entry is written unless its amount is zero. -/
theorem ends_insertEntryRow (h : Wrote f₀ s₀ rows f s) {t a : Uuid} {amount : Money}
    {createdAt : Time} {Q : Post Db LockKey Write AppError Unit}
    (hok : ∀ e f' s', e.transactionId = t → e.accountId = a → e.amount = amount.minor →
      amount.minor ≠ 0 → Wrote f₀ s₀ (rows ++ [.insertEntry e]) f' s' → Q (.ok ()) f' s')
    (herror : ∀ e f' s', amount.minor = 0 → Wrote f₀ s₀ rows f' s' → Q (.error e) f' s') :
    ends database A (insertEntryRow t a amount createdAt) f s Q := by
  unfold insertEntryRow
  refine ends_bind.2 (ends_draw (thenEnds_ok (ends_bind.2 (ends_ensure (fun hne => ?_)
    fun heq => ?_))))
  · exact thenEnds_ok (ends_put (hok _ _ _ rfl rfl rfl (by simpa using hne) (h.draw.wrote _)))
  · exact herror _ _ _ (by simpa using heq) h.draw

/-- The entries of all postings, then their foreign keys. -/
theorem ends_insertEntries {t : Transaction} {postings : List Posting}
    (h : Wrote f₀ s₀ [.insertTransaction t] f s) {Q : Post Db LockKey Write AppError Unit}
    (hok : ∀ entries f' s', (⟨t, postings, entries⟩ : Posted).Matches →
      (∀ p ∈ postings, p.amount.minor ≠ 0) →
      (∀ p ∈ postings, ((f₀.view database s₀).account p.accountId).isSome = true) →
      Wrote f₀ s₀ (journalRows t entries) f' s' → Q (.ok ()) f' s')
    (herror : ∀ e f' s' rows, ¬Accepts (f₀.view database s₀) postings →
      Wrote f₀ s₀ rows f' s' → Q (.error e) f' s') :
    ends database A (insertEntries t.id postings) f s Q := by
  unfold insertEntries
  refine ends_bind.2 (ends_read fun x _ => thenEnds_ok (ends_bind.2 ?_))
  -- the rows so far are those of the postings so far
  let I : List Posting → Standing Db LockKey Write → Db → Prop := fun done f' s' =>
    ∃ entries, (⟨t, done, entries⟩ : Posted).Matches ∧ (∀ q ∈ done, q.amount.minor ≠ 0) ∧
      Wrote f₀ s₀ (journalRows t entries) f' s'
  refine ends_forEach I [] ⟨[], rfl, by simp, h⟩ ?_ ?_
  · rintro done p after hsplit f₁ s₁ ⟨entries, hmatch, hne, h₁⟩
    refine ends_insertEntryRow h₁ ?_ ?_
    · intro e f₂ s₂ he ha hamount hne' h₂
      refine ⟨entries ++ [e], ?_, ?_, ?_⟩
      · simp only [Posted.Matches, List.map_append, List.map_cons, List.map_nil] at hmatch ⊢
        rw [hmatch, he, ha, hamount]
      · intro q hq
        rcases List.mem_append.1 hq with hq | hq
        · exact hne q hq
        · rw [List.mem_singleton.1 hq]
          exact hne'
      · simpa [journalRows] using h₂
    · intro e f₂ s₂ hzero h₂
      refine herror e f₂ s₂ _ (fun haccepts => ?_) h₂
      rw [List.nil_append] at hsplit
      exact haccepts.amount p (by simp [hsplit]) hzero
  · rintro f₁ s₁ ⟨entries, hmatch, hne, h₁⟩
    rw [List.nil_append] at hmatch hne
    let J : List Posting → Standing Db LockKey Write → Db → Prop := fun done f' s' =>
      (∀ q ∈ done, ((f₀.view database s₀).account q.accountId).isSome = true) ∧
        Wrote f₀ s₀ (journalRows t entries) f' s'
    refine thenEnds_ok (ends_forEach J [] ⟨by simp, h₁⟩ ?_ ?_)
    · rintro done p after hsplit f₂ s₂ ⟨haccounts, h₂⟩
      have haccount : (f₂.view database s₂).account p.accountId =
          (f₀.view database s₀).account p.accountId := by
        rw [h₂.view.account, applyAll_journalRows]
        rfl
      unfold assertReference
      refine ends_bind.2 (ends_select (thenEnds_ok ?_))
      rw [haccount]
      refine ends_ensure (fun hthere => ?_) fun hmissing => ?_
      · refine ⟨fun q hq => ?_, h₂.saw _⟩
        rcases List.mem_append.1 hq with hq | hq
        · exact haccounts q hq
        · rw [List.mem_singleton.1 hq]
          exact hthere
      · refine herror _ _ _ _ (fun haccepts => ?_) (h₂.saw _)
        rw [List.nil_append] at hsplit
        have hsome := haccepts.account p (by simp [hsplit])
        rw [hmissing] at hsome
        cases hsome
    · rintro f₂ s₂ ⟨haccounts, h₂⟩
      exact hok entries f₂ s₂ hmatch hne haccounts h₂

/-- A posting with a fresh id succeeds exactly when the database accepts its legs. -/
theorem ends_postInTransaction (hfresh : ∀ v x, A v x → FreshId v x) {input : PostInput}
    {Q : Post Db LockKey Write AppError PostedTransaction}
    (hok : ∀ (p : Posted) r f' s', p.transaction.kind = input.kind →
      p.transaction.reference = input.reference → p.postings = input.postings → p.Matches →
      FreshId (f.view database s) r → r.uuid = p.transaction.id →
      Accepts (f.view database s) input.postings → Wrote f s p.rows f' s' →
      Q (.ok ⟨p.transaction.id, input.kind, input.postings⟩) f' s')
    (herror : ∀ e f' s' rows, ¬Accepts (f.view database s) input.postings →
      Wrote f s rows f' s' → Q (.error e) f' s') :
    ends database A (postInTransaction input) f s Q := by
  unfold postInTransaction
  refine ends_bind.2 (ends_read fun x hx => thenEnds_ok (ends_bind.2 ?_))
  have hnew := hfresh _ _ hx
  unfold insertTransaction
  refine ends_bind.2 (ends_claim (.refl f s) (fun _ f₁ h₁ => ?_) fun htaken => ?_)
  case refine_2 =>
    rw [hnew] at htaken
    cases htaken
  refine thenEnds_ok (ends_put (thenEnds_ok (ends_bind.2 (ends_insertEntries
    (t := ⟨x.uuid, input.kind, input.reference⟩) (h₁.wrote _) ?_ herror))))
  intro entries f₂ s₂ hmatch hamount haccount h₂
  let I : List Posting → Standing Db LockKey Write → Db → Prop := fun done f' s' =>
    (∀ before p after, ordered input.postings = before ++ p :: after →
      before.length < done.length → Payable (f.view database s) before p) ∧
    Wrote f s (postRows ⟨x.uuid, input.kind, input.reference⟩ entries done) f' s'
  refine thenEnds_ok (ends_bind.2 (ends_forEach I []
    ⟨by simp, by simpa [postRows] using h₂⟩ ?_ ?_))
  · rintro done p after hsplit f₃ s₃ ⟨hpaid, h₃⟩
    rw [List.nil_append] at hsplit
    refine ends_updateBalance h₃ (fun hpay f₄ h₄ => ?_) fun e f₄ hpay hpending => ?_
    · refine ⟨fun before q rest hsplit₄ hlength => ?_, h₄⟩
      rw [List.length_append, List.length_singleton] at hlength
      rcases Nat.lt_succ_iff_lt_or_eq.1 hlength with hlt | heq
      · exact hpaid before q rest hsplit₄ hlt
      · rw [hsplit] at hsplit₄
        obtain ⟨rfl, htail⟩ := List.append_inj hsplit₄ heq.symm
        injection htail with hpq
        rw [← hpq]
        exact hpay
    · refine herror e f₄ s₃ _ (fun haccepts => ?_) ⟨hpending.trans h₃.pending, h₃.alike⟩
      exact hpay (haccepts.payable done p after hsplit)
  · rintro f₃ s₃ ⟨hpaid, h₃⟩
    rw [List.nil_append] at hpaid h₃
    refine thenEnds_ok (ends_pure (hok ⟨⟨x.uuid, input.kind, input.reference⟩, input.postings,
      entries⟩ x f₃ s₃ rfl rfl rfl hmatch hnew rfl ⟨hamount, haccount, fun before p after hsplit =>
        hpaid before p after hsplit ?_⟩ ?_))
    · rw [hsplit]
      simp
    · simpa [postRows, journalRows, Posted.rows] using h₃

end

end Tessera
