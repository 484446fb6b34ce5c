import Tessera.Books.Consistent
import Tessera.Transactions.Soundness

/-!
# The discipline of the books

What every session may count on: the books are consistent, and history is not rewritten.

* `History` — what no transaction undoes: the journal, a bet that is closed, a round that has
  left OPEN together with its bets;
* `Effect.history` — every enabled effect respects it;
* `Tidy.stable` — pending writes under locks do not come to overdraw an account;
* `books` — the discipline, with its laws.
-/

namespace Tessera

open Relational Transactions

/-- What no transaction undoes. -/
structure History (s s' : Db) : Prop extends Grows s s' where
  settled : ∀ {id b}, s.bet id = some b → b.status ≠ .ACTIVE → s'.bet id = some b
  closed : ∀ {id r}, s.round id = some r → r.status ≠ .OPEN →
    s'.betsOn id = s.betsOn id ∧ ∃ r', s'.round id = some r' ∧ r'.status ≠ .OPEN

/-- The empty history. -/
theorem History.refl (s : Db) : History s s :=
  { Grows.refl s with
    settled := fun h _ => h
    closed := fun h hne => ⟨rfl, _, h, hne⟩ }

/-- Two histories one after the other. -/
theorem History.trans {s s' s'' : Db} (h : History s s') (h' : History s' s'') : History s s'' :=
  { h.toGrows.trans h'.toGrows with
    settled := fun hb hne => h'.settled (h.settled hb hne) hne
    closed := fun hr hne => by
      obtain ⟨hbets, r', hr', hne'⟩ := h.closed hr hne
      obtain ⟨hbets', r'', hr'', hne''⟩ := h'.closed hr' hne'
      exact ⟨hbets'.trans hbets, r'', hr'', hne''⟩ }

/-- No effect loses anything. -/
theorem Grows.after (e : Effect) (s : Db) : Grows s (e.after s) := Grows.applyAll s e.rows

/-- An effect that leaves the bets and the rounds alone. -/
theorem History.of_eq {s s' : Db} (h : Grows s s') (hb : s'.bets = s.bets)
    (hr : s'.rounds = s.rounds) : History s s' :=
  { h with
    settled := fun hbet _ => by
      unfold Db.bet at hbet ⊢
      rwa [hb]
    closed := fun hround hne => by
      refine ⟨by unfold Db.betsOn; rw [hb], _, ?_, hne⟩
      unfold Db.round at hround ⊢
      rwa [hr] }

/-- The bets on a round after one of them has changed. -/
theorem betsOn_update (s : Db) (id roundId : Uuid) (u : BetUpdate) :
    (s.apply (.updateBet id u)).betsOn roundId = s.betsOn roundId :=
  map_filter_modify (fun _ => rfl) fun _ => rfl

/-- Every enabled effect respects history. -/
theorem Effect.history {config : Config} {s : Db} {e : Effect} (he : e.Enabled config s) :
    History s (e.after s) := by
  have hgrows := Grows.after e s
  cases e with
  | enroll u a p =>
    have hafter : Effect.after (.enroll u a p) s =
        ((s.apply (.insertUser u)).apply (.insertAccount a)).posted p := applyAll_posted _ p
    rw [hafter] at hgrows ⊢
    exact .of_eq hgrows rfl rfl
  | place b p =>
    have hafter : Effect.after (.place b p) s = (s.apply (.insertBet b)).posted p :=
      applyAll_posted _ p
    rw [hafter] at hgrows ⊢
    obtain ⟨r, hr, hopen⟩ := he.round
    refine { hgrows with settled := fun hb _ => ?_, closed := fun {id r'} hr' hne => ?_ }
    · exact lookup_append_of_some hb [b]
    · have hid : b.roundId ≠ id := by
        rintro rfl
        rw [hr] at hr'
        exact hne (Option.some.inj hr' ▸ hopen)
      refine ⟨?_, r', hr', hne⟩
      change ((s.bets ++ [b]).filter _).map Bet.id = _
      rw [List.filter_append]
      simp [hid, Db.betsOn]
  | close id u p =>
    have hafter : Effect.after (.close id u p) s = (s.apply (.updateBet id u)).posted p :=
      applyAll_posted _ p
    rw [hafter] at hgrows ⊢
    obtain ⟨b, hb, hactive, -⟩ := he.bet
    refine { hgrows with settled := fun {id' b'} hb' hne => ?_, closed := fun hr hne => ?_ }
    · have hid : id' ≠ id := by
        rintro rfl
        rw [hb] at hb'
        exact hne (Option.some.inj hb' ▸ hactive)
      exact (lookup_modify_ne (BetUpdate.row_id u) hid).trans hb'
    · exact ⟨betsOn_update s id _ u, _, hr, hne⟩
  | advance id u =>
    refine { hgrows with settled := fun hb _ => hb, closed := fun {id' r} hr hne => ⟨rfl, ?_⟩ }
    have hround := s.round_update id id' u
    by_cases hid : id' = id
    · rw [if_pos hid] at hround
      exact ⟨u.row r, hround.trans (congrArg (Option.map u.row) hr), he.status⟩
    · rw [if_neg hid] at hround
      exact ⟨r, hround.trans hr, hne⟩
  | launch r =>
    exact { hgrows with
      settled := fun hb _ => hb
      closed := fun hr hne => ⟨rfl, _, lookup_append_of_some hr [r], hne⟩ }
  | aside w =>
    have hw : w.isAside = true := he
    cases w <;> first
      | exact absurd hw Bool.false_ne_true
      | exact .of_eq hgrows rfl rfl

section
variable {config : Config}

/-- A list of effects keeps the books consistent and respects history. -/
theorem Done.keeps {s : Db} {es : List Effect} (h : Done config s es)
    (hs : Consistent config s) :
    Consistent config (database.applyAll s (rowsOf es)) ∧
      History s (database.applyAll s (rowsOf es)) := by
  refine h.invariant (P := fun s' => Consistent config s' ∧ History s s') ?_ ⟨hs, .refl s⟩
  exact fun s' e hs' he => ⟨hs'.1.after he, hs'.2.trans (Effect.history he)⟩

end

/-! ## Pending writes -/

/-- Writes that need no lock on a row leave it alone. -/
theorem Same.untouched {k : LockKey} {m : LockMode} {rows : List Write}
    (h : ∀ w ∈ rows, ∀ n ∈ needs w, n.1 ≠ k) (s : Db) :
    Same k m s (database.applyAll s rows) := by
  induction rows generalizing s with
  | nil => exact Same.refl _ _ _
  | cons w rows ih =>
    have hw : Same k m s (s.apply w) := Same.apply fun n hn hnk =>
      absurd hnk (h w List.mem_cons_self n hn)
    exact hw.trans (ih (fun w' hw' => h w' (List.mem_cons_of_mem _ hw')) (s.apply w))

/-- A balance is only written under its exclusive lock. -/
theorem needs_balance {w : Write} {id : Uuid} {m : LockMode} (h : (.balance id, m) ∈ needs w) :
    m = .exclusive := by
  cases w with
  | insertRound r =>
    cases hchain : r.chainId <;> simp [needs, hchain] at h
  | insertAccount a =>
    cases howner : a.ownerUserId <;> simp [needs, howner] at h <;> exact h.2
  | _ => simp [needs] at h <;> exact h.2

/-- Pending writes under locks do not come to overdraw an account while others commit. -/
theorem Tidy.stable {held : List (LockKey × LockMode)} {rows : List Write} {s s' : Db}
    (hcovered : ∀ row ∈ rows, needs row ⊆ held) (hsame : ∀ h ∈ held, Same h.1 h.2 s s')
    (hs' : Tidy s') (h : Tidy (database.applyAll s rows)) :
    Tidy (database.applyAll s' rows) := by
  intro id a ha hkind
  by_cases hlock : (LockKey.balance id, LockMode.exclusive) ∈ held
  · obtain ⟨hb, hacc⟩ := (hsame _ hlock).applyAll rows
    have hold := h id a (hacc.symm.trans ha) hkind
    unfold Db.balanceOf at hold ⊢
    rwa [hb]
  · -- a write to this balance would hold its lock
    have huntouched : Same (.balance id) .exclusive s' (database.applyAll s' rows) := by
      refine Same.untouched (fun w hw n hn hnk => hlock ?_) s'
      obtain ⟨key, mode⟩ := n
      obtain rfl : key = .balance id := hnk
      exact needs_balance hn ▸ hcovered w hw hn
    obtain ⟨hb, hacc⟩ := huntouched
    have hold := hs' id a (hacc.symm.trans ha) hkind
    unfold Db.balanceOf at hold ⊢
    rwa [hb]

/-! ## The discipline -/

/-- What every session of the system may count on. -/
def books (config : Config) : Discipline Db LockKey Write where
  inv := Consistent config
  grows := History
  same := Same
  tidy := Tidy
  needs := needs

section
variable (config : Config)

/-- The others may do nothing, and they may do one thing after another. -/
theorem books_regular : (books config).Regular :=
  ⟨History.refl, History.trans, Same.refl, Same.trans⟩

/-- The laws of the discipline. -/
theorem books_lawful : (books config).Lawful database where
  toRegular := books_regular config
  same_apply := Same.apply
  same_congr := fun row h => h.congr row
  tidy_inv := fun h => h.tidy
  tidy_stable := fun hcovered _ hrely h =>
    Tidy.stable hcovered hrely.same hrely.inv.tidy h

/-- The ids of the entries are no part of the books. -/
theorem sameBooks_drawEntryId (s : Db) : SameBooks s (s.apply .drawEntryId) :=
  ⟨rfl, rfl, rfl, rfl, rfl, rfl⟩

/-- The rules for the statements apply. -/
theorem books_regime : Regime (books config) where
  regular := books_regular config
  needs _ := List.Subset.refl _
  same h := h
  grows h := h.toGrows
  tidy hw h := hw h
  draw {_ s} h :=
    { inv := h.sameBooks (sameBooks_drawEntryId s) fun b hb => (h.fits b hb).round
      grows := .of_eq (Grows.apply s .drawEntryId) rfl rfl
      same := fun _ _ => Same.apply fun _ hn => absurd hn List.not_mem_nil }

end

end Tessera
