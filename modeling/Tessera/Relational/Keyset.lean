import Mathlib.Tactic

/-!
# Keyset pagination

Rows in strictly decreasing order of a key are handed out page by page: a page holds the rows
below a cursor, up to a limit, and names its last row as the cursor of the next page when the one
row read beyond the limit is there.  The rows may grow at the top between one page and the next.

* `below`, `page`, `follow` — the rows below a cursor, a page of them, and all pages in turn;
* `page_splits` — a page and what is left for the next one;
* `follow_complete` — the pages are the rows, and the last page is the one with nothing below it.
-/

namespace Relational

variable {ρ : Type} (key : ρ → ℤ)

/-- The rows below a cursor. -/
def below (cursor : Option ℤ) (rows : List ρ) : List ρ :=
  rows.filter fun r => cursor.all fun c => decide (key r < c)

/-- Some rows, and where the next page starts. -/
structure Page (ρ : Type) where
  rows : List ρ
  next : Option ℤ

/-- One row more than the limit is read, to see whether there are more. -/
def page (limit : ℕ) (cursor : Option ℤ) (rows : List ρ) : Page ρ :=
  let found := (below key cursor rows).take (limit + 1)
  if limit < found.length then ⟨found.take limit, (found.take limit).getLast?.map key⟩
  else ⟨found, none⟩

/-- The pages in turn, from a cursor on, as long as each names the next one. -/
def follow (pages : ℕ → Option ℤ → Page ρ) : ℕ → ℕ → Option ℤ → Option (List (Page ρ))
  | 0, _, _ => none
  | fuel + 1, k, cursor =>
    match (pages k cursor).next with
    | none => some [pages k cursor]
    | some c => (follow pages fuel (k + 1) (some c)).map (pages k cursor :: ·)

/-- From the first row on the keys go down. -/
def Descending (rows : List ρ) : Prop := rows.Pairwise fun r r' => key r' < key r

section
variable {key} {rows : List ρ} {cursor : Option ℤ} {limit : ℕ}

/-- The rows below a cursor. -/
theorem mem_below {r : ρ} : r ∈ below key cursor rows ↔ r ∈ rows ∧ ∀ c ∈ cursor, key r < c := by
  unfold below
  rw [List.mem_filter]
  cases cursor <;> simp

/-- Without a cursor all rows are below it. -/
theorem below_none : below key none rows = rows := by
  unfold below
  exact List.filter_eq_self.2 fun _ _ => rfl

/-- The rows below a cursor keep their order. -/
theorem Descending.below (h : Descending key rows) : Descending key (below key cursor rows) :=
  List.Pairwise.sublist List.filter_sublist h

/-- Two arrangements of the same rows with decreasing keys are the same. -/
theorem Descending.eq_of_perm {rows' : List ρ} (h : Descending key rows)
    (h' : Descending key rows') (hperm : rows.Perm rows') : rows = rows' :=
  hperm.eq_of_pairwise (fun _ _ _ _ hlt hlt' => absurd hlt' (lt_asymm hlt)) h h'

/-- Rows with distinct keys, sorted. -/
theorem descending_insertionSort (h : (rows.map key).Nodup) :
    Descending key (rows.insertionSort fun r r' => key r' ≤ key r) := by
  have htotal : Std.Total fun r r' : ρ => key r' ≤ key r := ⟨fun r r' => le_total _ _⟩
  have htrans : IsTrans ρ fun r r' => key r' ≤ key r := ⟨fun _ _ _ h h' => h'.trans h⟩
  have hsorted := List.pairwise_insertionSort (fun r r' : ρ => key r' ≤ key r) rows
  have hperm := List.perm_insertionSort (fun r r' : ρ => key r' ≤ key r) rows
  have hdistinct := (hperm.map key).nodup_iff.2 h
  rw [List.Nodup, List.pairwise_map] at hdistinct
  refine (hsorted.and hdistinct).imp fun hr => ?_
  exact lt_of_le_of_ne hr.1 (Ne.symm hr.2)

/-- Rows with distinct keys are sorted before or after they are selected. -/
theorem insertionSort_filter (h : (rows.map key).Nodup) (p : ρ → Bool) :
    (rows.filter p).insertionSort (fun r r' => key r' ≤ key r) =
      (rows.insertionSort fun r r' => key r' ≤ key r).filter p := by
  have hsub : ((rows.filter p).map key).Nodup := h.sublist (List.filter_sublist.map key)
  refine (descending_insertionSort hsub).eq_of_perm ?_ ?_
  · exact List.Pairwise.sublist List.filter_sublist (descending_insertionSort h)
  · exact (List.perm_insertionSort _ _).trans ((List.perm_insertionSort _ _).filter p).symm

/-- Where a list with decreasing keys is cut, the rows after the cut are those below the last row
before it. -/
theorem below_cut {first rest : List ρ} {last : ρ}
    (h : Descending key (first ++ [last] ++ rest)) :
    below key (some (key last)) (first ++ [last] ++ rest) = rest := by
  obtain ⟨hfirst, -, hrest⟩ := List.pairwise_append.1 h
  obtain ⟨-, -, hlast⟩ := List.pairwise_append.1 hfirst
  unfold below
  rw [List.filter_append, List.filter_append]
  have hnone : (first.filter fun r => (some (key last)).all fun c => decide (key r < c)) = [] := by
    refine List.filter_eq_nil_iff.2 fun r hr => ?_
    have := hlast r hr last (List.mem_singleton_self last)
    simp only [Option.all_some, decide_eq_true_eq]
    omega
  have hself : ([last].filter fun r => (some (key last)).all fun c => decide (key r < c)) = [] := by
    simp
  have hall : (rest.filter fun r => (some (key last)).all fun c => decide (key r < c)) = rest := by
    refine List.filter_eq_self.2 fun r hr => ?_
    have := hrest last (by simp) r hr
    simpa using this
  rw [hnone, hself, hall]
  rfl

/-- A cursor below another one sees the rows below both. -/
theorem below_below {c : ℤ} (h : ∀ c' ∈ cursor, c < c') :
    below key (some c) (below key cursor rows) = below key (some c) rows := by
  unfold below
  rw [List.filter_filter]
  refine List.filter_congr fun r _ => ?_
  cases cursor with
  | none => simp
  | some c' =>
    have hlt := h c' rfl
    by_cases hr : key r < c
    · have hr' : key r < c' := by omega
      simp [hr, hr']
    · simp [hr]

/-- A page and what is left: nothing, or the rows below the cursor that it names. -/
theorem page_splits (hrows : Descending key rows) (hlimit : 0 < limit) :
    ∃ rest, below key cursor rows = (page key limit cursor rows).rows ++ rest ∧
      ((page key limit cursor rows).next = none ∧ rest = [] ∨
        ∃ last ∈ (page key limit cursor rows).rows,
          (page key limit cursor rows).next = some (key last) ∧ rest ≠ [] ∧
            rest = below key (some (key last)) rows) := by
  have hdesc : Descending key (below key cursor rows) := hrows.below
  have hmem : ∀ r ∈ below key cursor rows, ∀ c ∈ cursor, key r < c :=
    fun r hr => (mem_below.1 hr).2
  have hbelow : ∀ c, (∀ c' ∈ cursor, c < c') →
      below key (some c) (below key cursor rows) = below key (some c) rows :=
    fun c hc => below_below hc
  unfold page
  generalize below key cursor rows = found at hdesc hmem hbelow
  by_cases hmore : limit < found.length
  · have hlength : limit < (found.take (limit + 1)).length := by
      rw [List.length_take]
      omega
    have htake : (found.take (limit + 1)).take limit = found.take limit := by
      rw [List.take_take]
      congr 1
      omega
    have hne : found.take limit ≠ [] := by
      intro hnil
      have hzero := congrArg List.length hnil
      rw [List.length_take, List.length_nil] at hzero
      omega
    obtain ⟨first, last, hlast⟩ : ∃ first last, found.take limit = first ++ [last] :=
      ⟨_, _, (List.dropLast_append_getLast hne).symm⟩
    obtain ⟨rest, hrest⟩ : ∃ rest, found.drop limit = rest := ⟨_, rfl⟩
    have hsplit : found = first ++ [last] ++ rest := by
      rw [← hlast, ← hrest, List.take_append_drop]
    simp only [hlength, if_true, htake, hlast, List.getLast?_concat, Option.map_some]
    refine ⟨rest, hsplit, .inr ⟨last, by simp, rfl, ?_, ?_⟩⟩
    · intro hnil
      have hzero := congrArg List.length hrest
      rw [hnil, List.length_drop, List.length_nil] at hzero
      omega
    · have hin : last ∈ found := by
        rw [hsplit]
        simp
      rw [← hbelow (key last) fun c hc => hmem last hin c hc]
      rw [hsplit] at hdesc ⊢
      exact (below_cut hdesc).symm
  · have hall : found.take (limit + 1) = found := List.take_of_length_le (by omega)
    simp only [hall, hmore, if_false]
    exact ⟨[], (List.append_nil _).symm, .inl ⟨trivial, rfl⟩⟩

/-- A page names no next one exactly when no row is below all its rows. -/
theorem page_next_eq_none (hrows : Descending key rows) (hlimit : 0 < limit)
    (hstart : cursor = none ∨ below key cursor rows ≠ []) :
    (page key limit cursor rows).next = none ↔
      ¬∃ r ∈ rows, ∀ r' ∈ (page key limit cursor rows).rows, key r < key r' := by
  obtain ⟨rest, hsplit, hnext⟩ := page_splits hrows hlimit
  have hdesc : Descending key (below key cursor rows) := hrows.below
  rcases hnext with ⟨hnone, hrest⟩ | ⟨last, hlast, hsome, hne, hrest⟩
  · refine iff_of_true hnone ?_
    rintro ⟨r, hr, hall⟩
    rw [hrest, List.append_nil] at hsplit
    -- the row is below the cursor, as the rows of the page are
    have hin : r ∈ below key cursor rows := by
      rcases hstart with rfl | hstart
      · rwa [below_none]
      · obtain ⟨r', hr'⟩ := List.exists_mem_of_ne_nil _ hstart
        refine mem_below.2 ⟨hr, fun c hc => ?_⟩
        have := hall r' (hsplit ▸ hr')
        have := (mem_below.1 hr').2 c hc
        omega
    exact lt_irrefl _ (hall r (hsplit ▸ hin))
  · refine iff_of_false (by rw [hsome]; exact Option.some_ne_none _) (not_not.2 ?_)
    obtain ⟨r, hr⟩ := List.exists_mem_of_ne_nil _ hne
    have hin : r ∈ rows := by
      rw [hrest] at hr
      exact (mem_below.1 hr).1
    refine ⟨r, hin, fun r' hr' => ?_⟩
    rw [Descending, hsplit] at hdesc
    exact (List.pairwise_append.1 hdesc).2.2 r' hr' r hr

end

section
variable {pages : ℕ → Option ℤ → Page ρ} {fuel k : ℕ} {cursor : Option ℤ}

/-- A page without a cursor is the last one. -/
theorem follow_last (h : (pages k cursor).next = none) :
    follow pages (fuel + 1) k cursor = some [pages k cursor] := by
  unfold follow
  rw [h]

/-- A page with a cursor is followed by the next one. -/
theorem follow_next {c : ℤ} (h : (pages k cursor).next = some c) :
    follow pages (fuel + 1) k cursor =
      (follow pages fuel (k + 1) (some c)).map (pages k cursor :: ·) := by
  rw [follow, h]

end

section
variable {key} (rows : ℕ → List ρ) (limits : ℕ → ℕ)

/-- Following the cursors hands out the rows that were below the first one, in their order, and
nothing else; each page names the next one unless nothing is below it. -/
theorem follow_complete (hrows : ∀ k, Descending key (rows k)) (hlimits : ∀ k, 0 < limits k)
    (hgrows : ∀ k, ∀ r ∈ rows k,
      below key (some (key r)) (rows (k + 1)) = below key (some (key r)) (rows k)) :
    ∀ (fuel k : ℕ) (cursor : Option ℤ), (below key cursor (rows k)).length < fuel →
      (cursor = none ∨ below key cursor (rows k) ≠ []) →
      ∃ pages, follow (fun k cursor => page key (limits k) cursor (rows k)) fuel k cursor =
          some pages ∧
        pages.flatMap Page.rows = below key cursor (rows k) ∧
        ∀ j p, pages[j]? = some p →
          (p.next = none ↔ ¬∃ r ∈ rows (k + j), ∀ r' ∈ p.rows, key r < key r') := by
  intro fuel
  induction fuel with
  | zero =>
    intro k cursor hfuel
    exact absurd hfuel (Nat.not_lt_zero _)
  | succ fuel ih =>
    intro k cursor hfuel hstart
    have hthis := page_next_eq_none (hrows k) (hlimits k) hstart
    obtain ⟨rest, hsplit, hnext⟩ := page_splits (hrows k) (hlimits k)
    rcases hnext with ⟨hnone, hrest⟩ | ⟨last, hlast, hsome, hne, hrest⟩
    · refine ⟨_, follow_last hnone, ?_, fun j p hp => ?_⟩
      · rw [hsplit, hrest]
        simp
      · obtain ⟨rfl, rfl⟩ : j = 0 ∧ page key (limits k) cursor (rows k) = p := by
          cases j with
          | zero => exact ⟨rfl, Option.some.inj hp⟩
          | succ j => cases hp
        exact hthis
    · have hfound : last ∈ below key cursor (rows k) := by
        rw [hsplit]
        exact List.mem_append_left _ hlast
      have hsame := hgrows k last (mem_below.1 hfound).1
      -- the next page starts where this one stopped
      have hless : (below key (some (key last)) (rows (k + 1))).length < fuel := by
        have hpos := List.length_pos_of_mem hlast
        rw [hsplit, List.length_append] at hfuel
        rw [hsame, ← hrest]
        omega
      obtain ⟨pages, hpages, hflat, heach⟩ := ih (k + 1) (some (key last)) hless
        (.inr (by rw [hsame, ← hrest]; exact hne))
      refine ⟨page key (limits k) cursor (rows k) :: pages, ?_, ?_, fun j p hp => ?_⟩
      · rw [follow_next hsome, hpages]
        rfl
      · rw [List.flatMap_cons, hflat, hsame, ← hrest, hsplit]
      · cases j with
        | zero =>
          obtain rfl := Option.some.inj hp
          exact hthis
        | succ j =>
          have hnext := heach j p hp
          rwa [show k + 1 + j = k + (j + 1) by omega] at hnext

end

end Relational
