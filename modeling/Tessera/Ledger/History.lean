import Tessera.Books.System
import Tessera.Relational.Keyset

/-!
# The history of an account

The postings of an account, newest first and page by page, while the ledger grows.

* `getHistory`, `countEntries` — a page of the history, and how long all of it is;
* `followHistory` — the pages in turn, each request on the ledger of its own moment;
* `Readable`, `Appends` — what the ledger promises;
* `history_complete` — the pages hold what was in the ledger at the first request.

Source: `ledger.service.ts` `getHistory`, `countEntries`, `ledger.types.ts` `LedgerEntryView`.
-/

namespace Tessera

open Relational Transactions

/-! ## The queries -/

/-- The options of `getHistory`. -/
structure HistoryOptions where
  limit : ℤ := 50
  cursor : Option ℤ
  referenceType : Option String

/-- Source: `ledger.types.ts` `LedgerEntryView`; `balanceAfter` is always null. -/
structure LedgerEntryView where
  id : ℕ
  transactionId : Uuid
  transactionKind : TransactionKind
  amount : Money
  referenceType : Option String
  referenceId : Option Uuid
  createdAt : Time
  deriving DecidableEq

/-- What `getHistory` returns. -/
structure HistoryPage where
  entries : List LedgerEntryView
  nextCursor : Option ℤ
  deriving DecidableEq

/-- A journal row. -/
def Db.transaction (s : Db) (id : Uuid) : Option Transaction :=
  lookup Transaction.id s.transactions id

/-- The condition on `t.reference_type`, which an empty text leaves out as a missing one does. -/
def Transaction.hasType (t : Transaction) (referenceType : Option String) : Bool :=
  match referenceType with
  | none => true
  | some type => type.isEmpty || t.reference.map Reference.type == some type

/-- `entries` joined to `transactions`, the rows of an account and of a reference type. -/
def Db.historyRows (s : Db) (accountId : Uuid) (referenceType : Option String) :
    List (Entry × Transaction) :=
  (s.entries.filterMap fun e => (s.transaction e.transactionId).map fun t => (e, t)).filter
    fun row => row.1.accountId == accountId && row.2.hasType referenceType

/-- Source: `LedgerService.countEntries`. -/
def countEntries (s : Db) (accountId : Uuid) (referenceType : Option String) : ℕ :=
  (s.historyRows accountId referenceType).length

/-- The id of the entry, as it is compared with a cursor. -/
def entryKey (row : Entry × Transaction) : ℤ := row.1.id

/-- A row as the driver reads it and `getHistory` returns it. -/
def readRow (row : Entry × Transaction) : Except AppError LedgerEntryView := do
  let _ ← readBigint row.1.id
  let amount ← readBigint row.1.amount
  pure
    { id := row.1.id
      transactionId := row.1.transactionId
      transactionKind := row.2.kind
      amount := amount
      referenceType := row.2.reference.map Reference.type
      referenceId := row.2.reference.map Reference.id
      createdAt := row.1.createdAt }

/-- Source: `LedgerService.getHistory`. -/
def getHistory (s : Db) (accountId : Uuid) (options : HistoryOptions) :
    Except AppError HistoryPage := do
  let limit := (min (max options.limit 1) 200).toNat
  let found := (s.historyRows accountId options.referenceType).filter fun row =>
    options.cursor.all fun c => decide (entryKey row < c)
  let rows ← ((found.insertionSort fun a b => entryKey b ≤ entryKey a).take (limit + 1)).mapM readRow
  let hasMore := decide (limit < rows.length)
  let entries := if hasMore then rows.take limit else rows
  pure ⟨entries, if hasMore then entries.getLast?.map fun v => (v.id : ℤ) else none⟩

/-- The pages in turn: the `k`-th request is made with its own limit and finds the ledger as it
then is. -/
def followHistory (accountId : Uuid) (referenceType : Option String) (limits : ℕ → ℤ)
    (states : ℕ → Db) : ℕ → ℕ → Option ℤ → Except AppError (Option (List HistoryPage))
  | 0, _, _ => .ok none
  | fuel + 1, k, cursor => do
    let page ← getHistory (states k) accountId ⟨limits k, cursor, referenceType⟩
    match page.nextCursor with
    | none => .ok (some [page])
    | some c =>
      let rest ← followHistory accountId referenceType limits states fuel (k + 1) (some c)
      .ok (rest.map (page :: ·))

/-! ## The ledger -/

/-- The entries have ids of their own and belong to journal rows, and their numbers are read as
they are. -/
structure Readable (s : Db) : Prop where
  ids : (s.entries.map Entry.id).Nodup
  journal : ∀ e ∈ s.entries, (s.transaction e.transactionId).isSome = true
  safe : ∀ e ∈ s.entries, Js.isSafeInteger e.id = true ∧ Js.isSafeInteger e.amount = true

/-- Entries with larger ids are appended, and the journal keeps its rows. -/
structure Appends (s s' : Db) : Prop where
  entries : ∃ more, s'.entries = s.entries ++ more ∧ ∀ e ∈ s.entries, ∀ e' ∈ more, e.id < e'.id
  journal : ∀ id t, s.transaction id = some t → s'.transaction id = some t

/-- A row whose numbers are safe, as it is returned. -/
def viewOf (row : Entry × Transaction) : LedgerEntryView where
  id := row.1.id
  transactionId := row.1.transactionId
  transactionKind := row.2.kind
  amount := if h : Js.isSafeInteger row.1.amount = true then ⟨row.1.amount, h⟩ else Money.zero
  referenceType := row.2.reference.map Reference.type
  referenceId := row.2.reference.map Reference.id
  createdAt := row.1.createdAt

/-- The history of an account, newest first. -/
def Db.history (s : Db) (accountId : Uuid) (referenceType : Option String) :
    List (Entry × Transaction) :=
  (s.historyRows accountId referenceType).insertionSort fun a b => entryKey b ≤ entryKey a

section
variable {s s' : Db} {accountId : Uuid} {referenceType : Option String}

/-- The rows of a history are the entries of its account with their journal rows. -/
theorem Db.mem_historyRows {row : Entry × Transaction} :
    row ∈ s.historyRows accountId referenceType ↔
      row.1 ∈ s.entries ∧ s.transaction row.1.transactionId = some row.2 ∧
        row.1.accountId = accountId ∧ row.2.hasType referenceType = true := by
  unfold Db.historyRows
  rw [List.mem_filter, List.mem_filterMap]
  constructor
  · rintro ⟨⟨e, he, hrow⟩, hmatch⟩
    obtain ⟨t, ht, rfl⟩ := Option.map_eq_some_iff.1 hrow
    simpa [he, ht] using hmatch
  · rintro ⟨he, ht, haccount, htype⟩
    refine ⟨⟨row.1, he, ?_⟩, ?_⟩
    · rw [ht]
      rfl
    · simp [haccount, htype]

/-- The history has the same rows in another order. -/
theorem Db.mem_history {row : Entry × Transaction} :
    row ∈ s.history accountId referenceType ↔ row ∈ s.historyRows accountId referenceType :=
  (List.perm_insertionSort _ _).mem_iff

/-- The rows of the join are in the order of the entries, some left out. -/
theorem Db.historyRows_ids (s : Db) (accountId : Uuid) (referenceType : Option String) :
    ((s.historyRows accountId referenceType).map fun row => row.1.id).Sublist
      (s.entries.map Entry.id) := by
  refine (List.filter_sublist.map _).trans ?_
  induction s.entries with
  | nil => exact List.Sublist.refl _
  | cons e rest ih =>
    rw [List.filterMap_cons]
    cases s.transaction e.transactionId with
    | none => exact ih.cons _
    | some t => exact ih.cons_cons _

/-- Every row of a readable history can be read. -/
theorem Readable.readRow (h : Readable s) {row : Entry × Transaction}
    (hrow : row ∈ s.history accountId referenceType) : readRow row = .ok (viewOf row) := by
  obtain ⟨hid, hamount⟩ := h.safe _ (Db.mem_historyRows.1 (Db.mem_history.1 hrow)).1
  unfold Tessera.readRow viewOf readBigint
  rw [dif_pos hid, dif_pos hamount, dif_pos hamount]
  rfl

/-- The rows of a history have distinct keys. -/
theorem Readable.keys (h : Readable s) :
    ((s.historyRows accountId referenceType).map entryKey).Nodup := by
  have hids := (h.ids.sublist (s.historyRows_ids accountId referenceType)).map
    (f := fun id : ℕ => (id : ℤ)) Nat.cast_injective
  rwa [List.map_map] at hids

/-- The history comes newest first. -/
theorem Readable.descending (h : Readable s) :
    Descending entryKey (s.history accountId referenceType) :=
  descending_insertionSort h.keys

/-- Rows that can all be read are read one by one. -/
theorem mapM_readRow {rows : List (Entry × Transaction)}
    (h : ∀ row ∈ rows, Tessera.readRow row = .ok (viewOf row)) :
    rows.mapM Tessera.readRow = .ok (rows.map viewOf) := by
  induction rows with
  | nil => rfl
  | cons row rows ih =>
    obtain ⟨hrow, hrest⟩ := List.forall_mem_cons.1 h
    rw [List.mapM_cons, hrow, ih hrest]
    rfl

/-- The limit as it is clamped. -/
def clamped (limit : ℤ) : ℕ := (min (max limit 1) 200).toNat

/-- A page has room for one row at least. -/
theorem clamped_pos (limit : ℤ) : 0 < clamped limit := by
  unfold clamped
  omega

/-- A page of rows, as it is returned. -/
def pageOf (page : Page (Entry × Transaction)) : HistoryPage := ⟨page.rows.map viewOf, page.next⟩

/-- What is made of the rows that were read. -/
theorem pageOf_read (limit : ℕ) (rows : List (Entry × Transaction)) :
    (let views := rows.map viewOf
      let hasMore := decide (limit < views.length)
      let entries := if hasMore then views.take limit else views
      HistoryPage.mk entries
        (if hasMore then entries.getLast?.map fun v => (v.id : ℤ) else none)) =
      pageOf (if limit < rows.length then ⟨rows.take limit, (rows.take limit).getLast?.map entryKey⟩
        else ⟨rows, none⟩) := by
  have hlength : (rows.map viewOf).length = rows.length := List.length_map _
  dsimp only
  rw [hlength]
  by_cases hmore : limit < rows.length
  · have hlast : ((rows.map viewOf).take limit).getLast?.map (fun v => (v.id : ℤ)) =
        (rows.take limit).getLast?.map entryKey := by
      rw [← List.map_take, List.getLast?_map, Option.map_map]
      rfl
    simp only [hmore, decide_true, if_true, hlast]
    rw [← List.map_take]
    rfl
  · simp only [hmore, decide_false, Bool.false_eq_true, if_false]
    rfl

/-- A request is answered with the page of the history that it asks for. -/
theorem Readable.getHistory (h : Readable s) (accountId : Uuid) (referenceType : Option String)
    (limit : ℤ) (cursor : Option ℤ) :
    getHistory s accountId ⟨limit, cursor, referenceType⟩ =
      .ok (pageOf (page entryKey (clamped limit) cursor (s.history accountId referenceType))) := by
  have hsort : ((s.historyRows accountId referenceType).filter fun row =>
      cursor.all fun c => decide (entryKey row < c)).insertionSort
        (fun a b => entryKey b ≤ entryKey a) =
      below entryKey cursor (s.history accountId referenceType) :=
    insertionSort_filter h.keys _
  have hread : (((below entryKey cursor (s.history accountId referenceType)).take
      (clamped limit + 1)).mapM Tessera.readRow) =
        .ok (((below entryKey cursor (s.history accountId referenceType)).take
          (clamped limit + 1)).map viewOf) := by
    refine mapM_readRow fun row hrow => ?_
    have hmem := (mem_below.1 (List.mem_of_mem_take hrow)).1
    exact h.readRow hmem
  unfold Tessera.getHistory
  simp only [hsort]
  show ((below entryKey cursor (s.history accountId referenceType)).take
    (clamped limit + 1)).mapM Tessera.readRow >>= _ = _
  rw [hread]
  unfold page pageOf
  generalize below entryKey cursor (s.history accountId referenceType) = found
  exact congrArg Except.ok (pageOf_read (clamped limit) (found.take (clamped limit + 1)))

/-- What is below an entry is the same after others are appended. -/
theorem Appends.below (h : Appends s s') (hs : Readable s) (hs' : Readable s')
    {row : Entry × Transaction} (hrow : row ∈ s.history accountId referenceType) :
    below entryKey (some (entryKey row)) (s'.history accountId referenceType) =
      below entryKey (some (entryKey row)) (s.history accountId referenceType) := by
  obtain ⟨more, hentries, hlarger⟩ := h.entries
  have hin : row.1 ∈ s.entries := (Db.mem_historyRows.1 (Db.mem_history.1 hrow)).1
  -- the same entries are joined to the same journal rows
  have hkept : (s.entries.filterMap fun e => (s'.transaction e.transactionId).map fun t => (e, t)) =
      s.entries.filterMap fun e => (s.transaction e.transactionId).map fun t => (e, t) := by
    refine List.filterMap_congr fun e he => ?_
    obtain ⟨t, ht⟩ := Option.isSome_iff_exists.1 (hs.journal e he)
    rw [ht, h.journal _ t ht]
  have hnone : ∀ row' : Entry × Transaction, row'.1 ∈ more → ¬entryKey row' < entryKey row := by
    intro row' hrow' hlt
    have := hlarger row.1 hin row'.1 hrow'
    unfold entryKey at hlt
    omega
  unfold Db.history Relational.below
  rw [← insertionSort_filter hs.keys, ← insertionSort_filter hs'.keys]
  refine congrArg _ ?_
  unfold Db.historyRows
  rw [hentries, List.filterMap_append, hkept, List.filter_append, List.filter_append]
  refine (congrArg _ (List.filter_eq_nil_iff.2 fun row' hrow' => ?_)).trans (List.append_nil _)
  obtain ⟨hmore, -⟩ := List.mem_filter.1 hrow'
  obtain ⟨e, he, hpair⟩ := List.mem_filterMap.1 hmore
  obtain ⟨t, -, rfl⟩ := Option.map_eq_some_iff.1 hpair
  simpa using hnone (e, t) he

end

section
variable {accountId : Uuid} {referenceType : Option String} {limits : ℕ → ℤ} {states : ℕ → Db}

/-- A last page ends the run. -/
theorem followHistory_last {fuel k : ℕ} {cursor : Option ℤ} {p : HistoryPage}
    (hpage : getHistory (states k) accountId ⟨limits k, cursor, referenceType⟩ = .ok p)
    (hnext : p.nextCursor = none) :
    followHistory accountId referenceType limits states (fuel + 1) k cursor = .ok (some [p]) := by
  simp only [followHistory, hpage, bind, Except.bind, hnext]

/-- Any other page is followed by those from its cursor on. -/
theorem followHistory_next {fuel k : ℕ} {cursor : Option ℤ} {p : HistoryPage} {c : ℤ}
    {rest : Option (List HistoryPage)}
    (hpage : getHistory (states k) accountId ⟨limits k, cursor, referenceType⟩ = .ok p)
    (hnext : p.nextCursor = some c)
    (hrest : followHistory accountId referenceType limits states fuel (k + 1) (some c) = .ok rest) :
    followHistory accountId referenceType limits states (fuel + 1) k cursor =
      .ok (rest.map (p :: ·)) := by
  simp only [followHistory, hpage, bind, Except.bind, hnext, hrest]

/-- The requests are answered with the pages of the history. -/
theorem followHistory_eq (hreadable : ∀ k, Readable (states k)) :
    ∀ (fuel k : ℕ) (cursor : Option ℤ),
      followHistory accountId referenceType limits states fuel k cursor =
        .ok ((follow (fun k cursor => page entryKey (clamped (limits k)) cursor
          ((states k).history accountId referenceType)) fuel k cursor).map (List.map pageOf)) := by
  intro fuel
  induction fuel with
  | zero =>
    intro k cursor
    rfl
  | succ fuel ih =>
    intro k cursor
    have hpage := (hreadable k).getHistory accountId referenceType (limits k) cursor
    cases hnext : (page entryKey (clamped (limits k)) cursor
        ((states k).history accountId referenceType)).next with
    | none =>
      rw [followHistory_last hpage hnext, follow_last hnext, Option.map_some, List.map_singleton]
    | some c =>
      rw [followHistory_next hpage hnext (ih (k + 1) (some c)), follow_next hnext, Option.map_map,
        Option.map_map]
      rfl

/-- Following the cursors ends, and hands out just what matched at the first request: each entry
once, the newest first, as many as are counted; a page names no next one exactly when no matching
entry is older than its own. -/
theorem history_complete (accountId : Uuid) (referenceType : Option String) (limits : ℕ → ℤ)
    (hreadable : ∀ k, Readable (states k)) (happends : ∀ k, Appends (states k) (states (k + 1))) :
    ∃ fuel pages, followHistory accountId referenceType limits states fuel 0 none =
        .ok (some pages) ∧
      (∀ v, v ∈ pages.flatMap HistoryPage.entries ↔
        ∃ e ∈ (states 0).entries, ∃ t, (states 0).transaction e.transactionId = some t ∧
          e.accountId = accountId ∧ t.hasType referenceType = true ∧ readRow (e, t) = .ok v) ∧
      (pages.flatMap HistoryPage.entries).Pairwise (fun v v' => v'.id < v.id) ∧
      (pages.flatMap HistoryPage.entries).length = countEntries (states 0) accountId referenceType ∧
      ∀ k p, pages[k]? = some p → (p.nextCursor = none ↔
        ¬∃ row ∈ (states k).historyRows accountId referenceType,
          ∀ v ∈ p.entries, row.1.id < v.id) := by
  have hfirst : below entryKey none ((states 0).history accountId referenceType) =
      (states 0).history accountId referenceType := below_none
  obtain ⟨pages, hpages, hflat, hnext⟩ := follow_complete
    (fun k => (states k).history accountId referenceType) (fun k => clamped (limits k))
    (fun k => (hreadable k).descending)
    (fun k => clamped_pos (limits k))
    (fun k row hrow => (happends k).below (hreadable k) (hreadable (k + 1)) hrow)
    _ 0 none (Nat.lt_succ_self _) (.inl rfl)
  have hviews : (pages.map pageOf).flatMap HistoryPage.entries =
      ((states 0).history accountId referenceType).map viewOf := by
    rw [← hfirst, ← hflat, List.map_flatMap, List.flatMap_map]
    rfl
  refine ⟨((states 0).history accountId referenceType).length + 1, pages.map pageOf, ?_, fun v => ?_, ?_, ?_, fun k p hp => ?_⟩
  · rw [hfirst] at hpages
    rw [followHistory_eq hreadable, hpages]
    rfl
  · rw [hviews, List.mem_map]
    constructor
    · rintro ⟨row, hrow, rfl⟩
      obtain ⟨he, ht, haccount, htype⟩ := Db.mem_historyRows.1 (Db.mem_history.1 hrow)
      exact ⟨row.1, he, row.2, ht, haccount, htype, (hreadable 0).readRow hrow⟩
    · rintro ⟨e, he, t, ht, haccount, htype, hread⟩
      have hrow : (e, t) ∈ (states 0).history accountId referenceType :=
        Db.mem_history.2 (Db.mem_historyRows.2 ⟨he, ht, haccount, htype⟩)
      rw [(hreadable 0).readRow hrow] at hread
      exact ⟨(e, t), hrow, Except.ok.inj hread⟩
  · rw [hviews, List.pairwise_map]
    refine ((hreadable 0).descending).imp fun hlt => ?_
    exact Int.ofNat_lt.1 hlt
  · rw [hviews, List.length_map]
    exact List.length_insertionSort _ _
  · rw [List.getElem?_map] at hp
    obtain ⟨q, hq, rfl⟩ := Option.map_eq_some_iff.1 hp
    have hq' := hnext k q hq
    rw [zero_add] at hq'
    refine hq'.trans (not_congr ?_)
    constructor
    · rintro ⟨row, hrow, hall⟩
      refine ⟨row, Db.mem_history.1 hrow, fun v hv => ?_⟩
      obtain ⟨row', hrow', rfl⟩ := List.mem_map.1 hv
      exact Int.ofNat_lt.1 (hall row' hrow')
    · rintro ⟨row, hrow, hall⟩
      refine ⟨row, Db.mem_history.2 hrow, fun row' hrow' => ?_⟩
      exact Int.ofNat_lt.2 (hall (viewOf row') (List.mem_map_of_mem hrow'))

end

/-- The ledger of the small game with three bets placed, and from the second request on with one
of them paid out and one written off. -/
def growing (k : ℕ) : Db :=
  if k = 0 then (executed (smallGame.take 287)).db else (executed smallGame).db

/-- The growing ledger of the example is readable. -/
theorem growing_readable (k : ℕ) : Readable (growing k) := by
  by_cases hk : k = 0
  · rw [growing, if_pos hk]
    exact ⟨by decide +kernel, by decide +kernel, by decide +kernel⟩
  · rw [growing, if_neg hk]
    exact ⟨by decide +kernel, by decide +kernel, by decide +kernel⟩

/-- It only grows. -/
theorem growing_appends (k : ℕ) : Appends (growing k) (growing (k + 1)) := by
  by_cases hk : k = 0
  · have hentries : (executed smallGame).db.entries =
        (executed (smallGame.take 287)).db.entries ++ (executed smallGame).db.entries.drop 8 := by
      decide +kernel
    have hlarger : ∀ e ∈ (executed (smallGame.take 287)).db.entries,
        ∀ e' ∈ (executed smallGame).db.entries.drop 8, e.id < e'.id := by decide +kernel
    have hjournal : (executed smallGame).db.transactions =
        (executed (smallGame.take 287)).db.transactions ++
          (executed smallGame).db.transactions.drop 4 := by decide +kernel
    rw [growing, growing, if_pos hk, if_neg (Nat.succ_ne_zero k)]
    refine ⟨⟨_, hentries, hlarger⟩, fun id t ht => ?_⟩
    unfold Db.transaction
    rw [hjournal]
    exact lookup_append_of_some ht _
  · rw [growing, growing, if_neg hk, if_neg (Nat.succ_ne_zero k)]
    exact ⟨⟨[], (List.append_nil _).symm, fun _ _ _ h => absurd h List.not_mem_nil⟩,
      fun _ _ h => h⟩

/-- The stakes of the three bets, two on a page; what the settlement appends is not among them. -/
theorem history_complete_growing :
    countEntries (growing 0) (uuidAt 6) (some "bet") = 3 ∧
      countEntries (growing 1) (uuidAt 6) (some "bet") = 5 ∧
      ∃ fuel pages, followHistory (uuidAt 6) (some "bet") (fun _ => 2) growing fuel 0 none =
          .ok (some pages) ∧
        (pages.flatMap HistoryPage.entries).length =
          countEntries (growing 0) (uuidAt 6) (some "bet") := by
  obtain ⟨fuel, pages, hpages, -, -, hlength, -⟩ :=
    history_complete (uuidAt 6) (some "bet") (fun _ => 2) growing_readable growing_appends
  exact ⟨by decide +kernel, by decide +kernel, fuel, pages, hpages, hlength⟩

end Tessera
