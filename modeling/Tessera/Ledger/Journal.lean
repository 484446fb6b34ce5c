import Tessera.Ledger.Service

/-!
# What a posting leaves in the journal

* `net` — what a list of postings moves into an account;
* `Posted` — one journal row with its entries, and the row writes that record it;
* `applyAll_posted` — the tables after those writes;
* `Db.deferred_eq_ok` — what the deferred trigger has checked of them.
-/

namespace Tessera

open Relational Transactions

/-! ## Net amounts -/

/-- What a list of postings moves into an account. -/
def net (postings : List Posting) (accountId : Uuid) : ℤ :=
  (postings.map fun p => if p.accountId = accountId then p.amount.minor else 0).sum

@[simp] theorem net_nil (id : Uuid) : net [] id = 0 := rfl

/-- The net amount of one more posting. -/
@[simp] theorem net_cons (p : Posting) (postings : List Posting) (id : Uuid) :
    net (p :: postings) id = (if p.accountId = id then p.amount.minor else 0) + net postings id := by
  simp [net]

/-- The net amount of two lists of postings is the sum of theirs. -/
theorem net_append (ps qs : List Posting) (id : Uuid) : net (ps ++ qs) id = net ps id + net qs id := by
  simp [net]

/-- The net amount does not depend on the order. -/
theorem net_perm {ps qs : List Posting} (h : ps.Perm qs) (id : Uuid) : net ps id = net qs id :=
  (h.map _).sum_eq

/-- An account without a posting is not moved. -/
theorem net_eq_zero {postings : List Posting} {id : Uuid}
    (h : ∀ p ∈ postings, p.accountId ≠ id) : net postings id = 0 := by
  induction postings with
  | nil => rfl
  | cons p rest ih =>
    rw [net_cons, if_neg (h p List.mem_cons_self), ih fun q hq => h q (List.mem_cons_of_mem _ hq)]
    rfl

/-- An account that is only credited has a net amount that is not negative. -/
theorem net_nonneg {postings : List Posting} {id : Uuid}
    (h : ∀ p ∈ postings, p.accountId = id → 0 ≤ p.amount.minor) : 0 ≤ net postings id := by
  induction postings with
  | nil => exact le_refl 0
  | cons p rest ih =>
    have hrest := ih fun q hq => h q (List.mem_cons_of_mem _ hq)
    rw [net_cons]
    split
    case isTrue hid => exact add_nonneg (h p List.mem_cons_self hid) hrest
    case isFalse => simpa using hrest

/-- The postings in the order of their locks are the same postings. -/
theorem ordered_perm (postings : List Posting) : (ordered postings).Perm postings :=
  List.perm_insertionSort _ _

/-- No posting is lost or added when they are put in order. -/
theorem mem_ordered {postings : List Posting} {p : Posting} :
    p ∈ ordered postings ↔ p ∈ postings :=
  (ordered_perm postings).mem_iff

/-! ## Balances -/

/-- The balances after a list of postings. -/
def Db.credit (s : Db) (postings : List Posting) : Db :=
  { s with balances := s.balances.map fun b => b.add (net postings b.accountId) }

@[simp] theorem Db.credit_nil (s : Db) : s.credit [] = s := by
  simp [Db.credit, Balance.add]

/-- The balances do not depend on the order of the postings. -/
theorem Db.credit_perm (s : Db) {ps qs : List Posting} (h : ps.Perm qs) :
    s.credit ps = s.credit qs := by
  unfold Db.credit
  simp only [net_perm h]

/-- The row writes that change the balances, one after the other. -/
theorem applyAll_addBalance (s : Db) (postings : List Posting) :
    database.applyAll s (postings.map fun p => .addBalance p.accountId p.amount.minor) =
      s.credit postings := by
  induction postings generalizing s with
  | nil => exact (Db.credit_nil s).symm
  | cons p rest ih =>
    rw [List.map_cons, Database.applyAll_cons, ih]
    simp only [database, Db.apply, Db.credit, Relational.modify, List.map_map]
    congr 1
    refine List.map_congr_left fun b _ => ?_
    simp only [Function.comp_apply, net_cons, Balance.add]
    by_cases hb : b.accountId = p.accountId
    · simp [hb, add_assoc]
    · simp [hb, Ne.symm hb]

/-- Each balance moves by the net amount of its account. -/
theorem Db.balance_credit (s : Db) (postings : List Posting) (id : Uuid) :
    (s.credit postings).balance id = (s.balance id).map (Balance.add (net postings id)) := by
  have hkey : ((fun r : Balance => decide (r.accountId = id)) ∘
      fun b => Balance.add (net postings b.accountId) b) = fun r => decide (r.accountId = id) :=
    rfl
  unfold Db.balance Db.credit lookup
  rw [List.find?_map, hkey]
  cases h : s.balances.find? fun r => decide (r.accountId = id) with
  | none => rfl
  | some b =>
    have hb : b.accountId = id := by simpa using List.find?_some h
    simp [hb]

/-- An account that has a balances row. -/
theorem Db.balanceOf_credit {s : Db} {id : Uuid} (h : (s.balance id).isSome = true)
    (postings : List Posting) :
    (s.credit postings).balanceOf id = s.balanceOf id + net postings id := by
  obtain ⟨b, hb⟩ := Option.isSome_iff_exists.1 h
  unfold Db.balanceOf
  rw [Db.balance_credit, hb]
  rfl

/-- A balance with a net amount of zero is where it was. -/
theorem Db.balanceOf_credit_other (s : Db) {postings : List Posting} {id : Uuid}
    (h : net postings id = 0) : (s.credit postings).balanceOf id = s.balanceOf id := by
  unfold Db.balanceOf
  rw [Db.balance_credit, h]
  cases s.balance id <;> simp [Balance.add]

/-! ## Journal rows -/

/-- One journal row, its entries and the postings they record. -/
structure Posted where
  transaction : Transaction
  postings : List Posting
  entries : List Entry
  deriving DecidableEq

/-- The entries say what the postings say, of this journal row. -/
def Posted.Matches (p : Posted) : Prop :=
  p.entries.map (fun e => (e.transactionId, e.accountId, e.amount)) =
    p.postings.map fun q => (p.transaction.id, q.accountId, q.amount.minor)

/-- The row writes of one `post`. -/
def Posted.rows (p : Posted) : List Write :=
  .insertTransaction p.transaction ::
    (p.entries.map .insertEntry ++
      (ordered p.postings).map fun q => .addBalance q.accountId q.amount.minor)

/-- The tables after one `post`. -/
def Db.posted (s : Db) (p : Posted) : Db :=
  { s with
    transactions := s.transactions ++ [p.transaction]
    entries := s.entries ++ p.entries
    balances := s.balances.map fun b => b.add (net p.postings b.accountId) }

/-- Entries are appended in the order in which they are written. -/
theorem applyAll_insertEntry (s : Db) (entries : List Entry) :
    database.applyAll s (entries.map .insertEntry) = { s with entries := s.entries ++ entries } := by
  induction entries generalizing s with
  | nil => simp
  | cons e rest ih =>
    rw [List.map_cons, Database.applyAll_cons, ih]
    simp [database, Db.apply]

/-- The writes of a posting are the posting. -/
theorem applyAll_posted (s : Db) (p : Posted) :
    database.applyAll s p.rows = s.posted p := by
  unfold Posted.rows
  rw [Database.applyAll_cons, Database.applyAll_append, applyAll_insertEntry,
    applyAll_addBalance, Db.credit_perm _ (ordered_perm p.postings)]
  rfl

/-- The deferred trigger accepts the writes of a transaction when it accepts the journal row of
each new entry. -/
theorem Db.deferred_eq_ok {s : Db} {rows : List Write} :
    s.deferred rows = .ok () ↔
      ∀ e, .insertEntry e ∈ rows → s.assertTransactionBalanced e.transactionId = .ok () := by
  induction rows with
  | nil => simp [Db.deferred]
  | cons w rows ih =>
    cases w with
    | insertEntry e =>
      unfold Db.deferred
      cases hbalanced : s.assertTransactionBalanced e.transactionId with
      | error error =>
        refine iff_of_false (by simp) fun h => ?_
        have hok := h e List.mem_cons_self
        rw [hbalanced] at hok
        cases hok
      | ok _ =>
        dsimp only
        rw [ih]
        simp [hbalanced]
    | _ =>
      unfold Db.deferred
      rw [ih]
      simp

/-- The deferred trigger has passed the journal row of every entry. -/
theorem Posted.balanced {p : Posted} {s : Db} (hmatch : p.Matches)
    (h : s.deferred p.rows = .ok ()) (hlegs : p.postings ≠ []) :
    s.assertTransactionBalanced p.transaction.id = .ok () := by
  have hentries : p.entries ≠ [] := by
    intro hnil
    unfold Posted.Matches at hmatch
    rw [hnil] at hmatch
    exact hlegs (List.map_eq_nil_iff.1 hmatch.symm)
  obtain ⟨e, he⟩ := List.exists_mem_of_ne_nil _ hentries
  have hid : (e.transactionId, e.accountId, e.amount) ∈
      p.postings.map fun q => (p.transaction.id, q.accountId, q.amount.minor) := by
    rw [← hmatch]
    exact List.mem_map_of_mem he
  obtain ⟨q, -, hq⟩ := List.mem_map.1 hid
  injection hq with hq
  rw [hq]
  exact Db.deferred_eq_ok.1 h e (by simp [Posted.rows, he])

end Tessera
