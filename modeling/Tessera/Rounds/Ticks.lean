import Tessera.Rounds.Settled
import Tessera.Transactions.Idle

/-!
# One tick after the other

The engine ticks with nobody else at work.  Whenever the clock has passed the deadline of the live
round that a tick looks at, the tick moves it on, and as a round moves on four times at most, four
ticks bring it to its end.

* `Round.Due` — the deadline of a round has passed;
* `Db.moved`, `ends_move` — a transition that only changes the round;
* `tickGame_due` — one tick;
* `Ticked`, `Ticking` — ticks one after the other;
* `ticks_finish` — no round gets stuck.

Source: `src/src/rounds/round-engine.service.ts` `tickGame`, `lockRound`, `startRound`,
`resolveRound`.
-/

namespace Tessera

open Relational Transactions Transactions.Program

/-! ## Deadlines -/

/-- The clock has passed what the live round waits for. -/
def Round.Due (config : Config) (r : Round) (now : Time) : Prop :=
  match r.status with
  | .OPEN => r.locksAt ≤ now
  | .RUNNING => ∀ startedAt, r.startedAt = some startedAt →
      startedAt ≤ now ∧ startedAt + crashAfterMs config r ≤ now
  | _ => True

instance (config : Config) (r : Round) (now : Time) : Decidable (r.Due config now) := by
  unfold Round.Due
  split
  · exact inferInstance
  · exact decidable_of_iff (r.startedAt.all fun startedAt =>
      decide (startedAt ≤ now ∧ startedAt + crashAfterMs config r ≤ now))
      (by simp [Option.all_eq_true])
  · exact inferInstance

/-- The part of `tickGame` that follows its reads. -/
def Round.advance (config : Config) (live : Round) (now : Time) : Action Unit :=
  match live.status with
  | .OPEN => if live.locksAt ≤ now then lockRound live.id else pure ()
  | .LOCKED => startRound live.id
  | .RUNNING =>
    match live.startedAt with
    | none => pure ()
    | some startedAt =>
      let elapsed := now - startedAt
      if crashAfterMs config live + config.roundStaleGraceMs ≤ elapsed then voidRound live.id
      else if crashAfterMs config live ≤ elapsed then resolveRound live.id
      else pure ()
  | .RESOLVED => settleRound live.id
  | _ => pure ()

section
variable {config : Config} {crypto : Crypto} {game : GameKind} {s : Db} {r : Round}
variable {A : Db → Inputs → Prop} {xs : ℕ → Inputs}

/-- A tick opens a round or advances the live one. -/
theorem tickGame_eq (config : Config) (crypto : Crypto) (game : GameKind) :
    tickGame config crypto game = select (liveRoundOf game) >>= fun found =>
      found.elim (openRoundIfDue config crypto game >>= fun _ => pure ())
        fun live => read >>= fun x => live.advance config x.now := by
  unfold tickGame
  refine congrArg _ (funext fun found => ?_)
  rcases found with _ | live <;> rfl

/-- A tick that finds a live round advances it. -/
theorem tickGame_finish (config : Config) (crypto : Crypto) (xs : ℕ → Inputs)
    (hlive : liveRoundOf game s = some r) :
    ((tickGame config crypto game).finish database xs {} s).1 =
        ((r.advance config (xs 1).now).finish database (fun n => xs (n + 2)) {} s).1 ∧
      ((tickGame config crypto game).finish database xs {} s).2.2 =
        ((r.advance config (xs 1).now).finish database (fun n => xs (n + 2)) {} s).2.2 := by
  have hsaw : (tickGame config crypto game).finish database xs {} s =
      (r.advance config (xs 1).now).finish database (fun n => xs (n + 2))
        (Standing.saw {} s) s := by
    rw [tickGame_eq]
    show Program.finish database ((liveRoundOf game s).elim _ _) _ _ _ = _
    rw [hlive]
    rfl
  rw [hsaw]
  exact Program.finish_pending rfl

/-- A tick that advances a round reads the clock once before it does. -/
theorem tickGame_reads (hlive : liveRoundOf game s = some r)
    (h : (tickGame config crypto game).Reads database A xs {} s) :
    A s (xs 1) ∧ (r.advance config (xs 1).now).Reads database A (fun n => xs (n + 2)) {} s := by
  have hsaw : A s (xs 1) ∧ (r.advance config (xs 1).now).Reads database A (fun n => xs (n + 2))
      (Standing.saw {} s) s := by
    rw [tickGame_eq] at h
    change Program.Reads database A ((liveRoundOf game s).elim _ _) _ _ _ at h
    rw [hlive] at h
    exact h
  exact ⟨hsaw.1, .pending (f := Standing.saw {} s) rfl hsaw.2⟩

end

/-! ## A transition that only changes the round -/

/-- The tables after a transition that everyone is told of. -/
def Db.moved (s : Db) (roundId : Uuid) (u : RoundUpdate) : Db :=
  (s.apply (.updateRound roundId u)).apply (.notify (.roundState roundId))

section
variable {A : Db → Inputs → Prop} {f : Standing Db LockKey Write} {s : Db} {r : Round}
variable {u : RoundUpdate} {from_ : RoundStatus → Bool}

/-- The transaction of a transition whose row is there. -/
theorem ends_move (hf : f.pending = []) (hr : s.round r.id = some r) (hfrom : from_ r.status = true)
    (hchecks : (u.row r).violated = none) {Q : Post Db LockKey Write AppError Unit}
    (hok : ∀ f', f'.pending = [.updateRound r.id u, .notify (.roundState r.id)] → Q (.ok ()) f' s) :
    ends database A (updateRoundWhere r.id from_ u >>= publishIfChanged r.id) f s Q := by
  have hview : ∀ {f' : Standing Db LockKey Write}, f'.pending = [] → f'.view database s = s := by
    intro f' h
    unfold Standing.view
    rw [h]
    rfl
  have hfind : ((f.view database s).round r.id).filter (fun r => from_ r.status) = some r := by
    rw [hview hf, hr, Option.filter_some, if_pos hfrom]
  refine ends_bind.2 (ends_bind.2 (ends_selectForLock (fun hmissing => ?_) fun row hrow =>
    thenEnds_ok ?_))
  · rw [hfind] at hmissing
    cases hmissing
  · obtain rfl : r = row := Option.some.inj (hfind.symm.trans hrow)
    refine ends_bind.2 (ends_assertChecks (fun _ => thenEnds_ok ?_) fun c hc => ?_)
    · refine ends_bind.2 (ends_put (thenEnds_ok (thenEnds_ok (ends_put (hok _ ?_)))))
      simp [Standing.wrote, Standing.locked, Standing.saw, hf]
    · rw [hchecks] at hc
      cases hc

/-- What such a transaction commits. -/
theorem moved_commits (hf : f.pending = [.updateRound r.id u, .notify (.roundState r.id)]) :
    f.view database s = s.moved r.id u ∧
      database.deferred (f.view database s) f.pending = .ok () := by
  refine ⟨?_, Db.deferred_eq_ok.2 fun e he => ?_⟩
  · unfold Standing.view
    rw [hf]
    rfl
  · rw [hf] at he
    simp at he

/-- A transition as a transaction, after which it is committed. -/
theorem ends_moveTransaction {body : Action Unit} {P : RoundUpdate → Prop}
    (h : ∀ {Q : Post Db LockKey Write AppError Unit}, (∀ u f', P u →
        f'.pending = [.updateRound r.id u, .notify (.roundState r.id)] → Q (.ok ()) f' s) →
      ends database A body f s Q) :
    ends database A (transaction body) f s fun result _ s' =>
      result.isOk = true ∧ ∃ u, P u ∧ s' = s.moved r.id u := by
  refine ends_transaction (h fun u f' hu hf' => ?_)
  obtain ⟨hview, hdeferred⟩ := moved_commits hf'
  refine ⟨fun _ => ⟨rfl, u, hu, hview⟩, fun e he => ?_⟩
  rw [hdeferred] at he
  cases he

/-- The row after a transition satisfies its constraints, unless it was started in the future. -/
theorem Transition.row_violated (ht : Transition r u) (hr : r.Sound)
    (hon : (u.row r).status = .LOCKED ∨ (u.row r).status = .RUNNING ∨ (u.row r).status = .RESOLVED)
    (hstarted : ∀ now startedAt, u.resolvedAt = some now → r.startedAt = some startedAt →
      startedAt ≤ now) : (u.row r).violated = none := by
  have hall := firstViolated_none hr.checks
  simp only [List.forall_mem_cons] at hall
  obtain ⟨hindex, hcrash, hflying, houtcome, -, hrevealed, hbefore, -, hpocket, -⟩ := hall
  unfold Round.violated
  rw [firstViolated_eq_none]
  simp only [List.forall_mem_cons]
  cases ht with
  | lock h =>
    refine ⟨hindex, hcrash, rfl, houtcome, ?_, ?_, hbefore, rfl, hpocket, List.forall_mem_nil _⟩
    · simp [RoundUpdate.row, hr.revealed, h, RoundStatus.revealed, RoundStatus.concluded]
    · simp [RoundUpdate.row, hr.revealed, h, RoundStatus.revealed, RoundStatus.concluded]
  | start h now =>
    have hnone := hr.unresolved (hr.waiting (.inr h))
    refine ⟨hindex, hcrash, rfl, houtcome, ?_, ?_, ?_, rfl, hpocket, List.forall_mem_nil _⟩
    · simp [RoundUpdate.row, hr.revealed, h, RoundStatus.revealed, RoundStatus.concluded]
    · simp [RoundUpdate.row, hr.revealed, h, RoundStatus.revealed, RoundStatus.concluded]
    · simp [RoundUpdate.row, hnone]
  | resolve h now =>
    obtain ⟨startedAt, hat⟩ :=
      Option.isSome_iff_exists.1 ((Round.checked hr.checks).started (.inl h))
    have hle := hstarted now startedAt rfl hat
    refine ⟨hindex, hcrash, ?_, houtcome, ?_, rfl, ?_, rfl, hpocket, List.forall_mem_nil _⟩
    · simp [RoundUpdate.row, hat]
    · simp [RoundUpdate.row]
    · simp [RoundUpdate.row, hat, hle]
  | settle h now => simp [RoundUpdate.row] at hon
  | void h now => simp [RoundUpdate.row] at hon

/-- By itself, `lockRound` locks an open round. -/
theorem ends_lockRound (hr : s.round r.id = some r) (hsound : r.Sound) (h : r.status = .OPEN) :
    ends database A (lockRound r.id) {} s fun result _ s' =>
      result.isOk = true ∧ ∃ u, (Transition r u ∧ (u.row r).status = .LOCKED) ∧
        s' = s.moved r.id u :=
  ends_moveTransaction fun hQ => ends_move rfl hr (by simp [h])
    (Transition.row_violated (.lock h) hsound (.inl rfl) (by simp))
    fun f' hf' => hQ _ f' ⟨.lock h, rfl⟩ hf'

/-- By itself, `startRound` starts a locked round. -/
theorem ends_startRound (hr : s.round r.id = some r) (hsound : r.Sound) (h : r.status = .LOCKED) :
    ends database A (startRound r.id) {} s fun result _ s' =>
      result.isOk = true ∧ ∃ u, (Transition r u ∧ (u.row r).status = .RUNNING) ∧
        s' = s.moved r.id u :=
  ends_moveTransaction fun hQ => ends_bind.2 (ends_read fun x _ => thenEnds_ok
    (ends_move rfl hr (by simp [h])
      (Transition.row_violated (.start h x.now) hsound (.inr (.inl rfl)) (by simp))
      fun f' hf' => hQ _ f' ⟨.start h x.now, rfl⟩ hf'))

/-- By itself, `resolveRound` resolves a running round, if the clock has not gone back. -/
theorem ends_resolveRound (hr : s.round r.id = some r) (hsound : r.Sound) (h : r.status = .RUNNING)
    (hA : ∀ x, A s x → ∀ startedAt, r.startedAt = some startedAt → startedAt ≤ x.now) :
    ends database A (resolveRound r.id) {} s fun result _ s' =>
      result.isOk = true ∧ ∃ u, (Transition r u ∧ (u.row r).status = .RESOLVED) ∧
        s' = s.moved r.id u := by
  refine ends_bind.2 (ends_select (thenEnds_ok ?_))
  rw [show (Standing.view database ({} : Standing Db LockKey Write) s).round r.id = some r from hr]
  refine ends_moveTransaction fun hQ => ends_bind.2 (ends_read fun x hx => thenEnds_ok
    (ends_move rfl hr (by simp [h])
      (Transition.row_violated (.resolve h x.now) hsound (.inr (.inr rfl))
        fun now startedAt hnow hat => ?_)
      fun f' hf' => hQ _ f' ⟨.resolve h x.now, rfl⟩ hf'))
  obtain rfl : x.now = now := Option.some.inj hnow
  exact hA x hx startedAt hat

end

/-! ## One tick -/

/-- What has changed when a tick has moved a round on. -/
inductive Advanced (s : Db) (r : Round) : Db → Prop
  | moved {u : RoundUpdate} (transition : Transition r u) (unsettled : (u.row r).status.rank < 4) :
      Advanced s r (s.moved r.id u)
  | settled {s' : Db} (status : r.status = .RESOLVED) (changes : Settled r s s') : Advanced s r s'
  | voided {s' : Db} (status : r.status = .RUNNING) (changes : Voided r s s') : Advanced s r s'

/-- The amounts with which the round can be brought to its end. -/
def Db.Completable (s : Db) (r : Round) : Prop := s.Settleable r ∧ s.Refundable r.id

/-- What one tick by itself reads: fresh ids, and a clock that has passed the deadline of the round
that it looks at. -/
def TickReads (config : Config) (crypto : Crypto) (game : GameKind) (xs : ℕ → Inputs) (s : Db) :
    Prop :=
  (tickGame config crypto game).Reads database
    (fun v x => FreshId v x ∧ (liveRoundOf game s).all fun r => r.Due config x.now) xs {} s

instance (config : Config) (crypto : Crypto) (game : GameKind) (xs : ℕ → Inputs) (s : Db) :
    Decidable (TickReads config crypto game xs s) :=
  inferInstanceAs (Decidable ((tickGame config crypto game).Reads database _ xs {} s))

/-- A tick by itself commits. -/
def tickCommits (config : Config) (crypto : Crypto) (game : GameKind) (xs : ℕ → Inputs) (s : Db) :
    Bool :=
  ((tickGame config crypto game).finish database xs {} s).1.isOk

/-- The committed state afterwards. -/
def tickAfter (config : Config) (crypto : Crypto) (game : GameKind) (xs : ℕ → Inputs) (s : Db) :
    Db :=
  ((tickGame config crypto game).finish database xs {} s).2.2

section
variable {config : Config} {crypto : Crypto} {game : GameKind} {s s' : Db} {r : Round}

/-- The round that a tick looks at. -/
theorem liveRoundOf_some (h : liveRoundOf game s = some r) :
    r ∈ s.rounds ∧ r.game = game ∧ (r.status.isLive = true ∨ r.status = .RESOLVED) := by
  obtain ⟨hmem, hlive⟩ := List.mem_filter.1 (greatest_mem h).1
  simpa [hmem] using hlive

/-- In every state that the system reaches, a tick moves the round that it looks at on, if the clock
has passed its deadline and its amounts are small enough. -/
theorem tickGame_due {w : System} (h : Reaches config crypto w)
    (hlive : liveRoundOf game w.db = some r) {xs : ℕ → Inputs}
    (hxs : TickReads config crypto game xs w.db) (hfits : w.db.Completable r) :
    tickCommits config crypto game xs w.db = true ∧
      Advanced w.db r (tickAfter config crypto game xs w.db) := by
  have hlifecycle := reaches_lifecycle h
  obtain ⟨hmem, -, hstatus⟩ := liveRoundOf_some hlive
  have hr : w.db.round r.id = some r := hlifecycle.round_of_mem hmem
  have hsound := hlifecycle.sound r hmem
  obtain ⟨⟨-, hdue⟩, hreads⟩ := tickGame_reads hlive hxs
  obtain ⟨hresult, hafter⟩ := tickGame_finish config crypto xs hlive
  unfold tickCommits tickAfter
  rw [hresult, hafter]
  rw [hlive, Option.all_some, decide_eq_true_eq] at hdue
  unfold Round.advance at hreads ⊢
  unfold Round.Due at hdue
  cases hr' : r.status with
  | OPEN =>
    simp only [hr'] at hreads hdue ⊢
    rw [if_pos hdue] at hreads ⊢
    obtain ⟨hok, u, ⟨ht, hu⟩, hmoved⟩ := finish_of_ends (ends_lockRound hr hsound hr') hreads
    exact ⟨hok, hmoved ▸ .moved ht (by rw [hu]; decide)⟩
  | LOCKED =>
    simp only [hr'] at hreads ⊢
    obtain ⟨hok, u, ⟨ht, hu⟩, hmoved⟩ := finish_of_ends (ends_startRound hr hsound hr') hreads
    exact ⟨hok, hmoved ▸ .moved ht (by rw [hu]; decide)⟩
  | RUNNING =>
    obtain ⟨startedAt, hstarted⟩ :=
      Option.isSome_iff_exists.1 ((Round.checked hsound.checks).started (.inl hr'))
    simp only [hr', hstarted] at hreads hdue ⊢
    obtain ⟨hle, hpast⟩ := hdue startedAt rfl
    by_cases hstale :
        crashAfterMs config r + config.roundStaleGraceMs ≤ (xs 1).now - startedAt
    · rw [if_pos hstale] at hreads ⊢
      obtain ⟨hiff, hvoided⟩ := voidRound_live h (hreads.mono fun _ _ hx => hx.1) hr (by rw [hr']; rfl)
      have hok := hiff.2 hfits.2
      exact ⟨hok, .voided hr' (hvoided hok)⟩
    · have hcrash : crashAfterMs config r ≤ (xs 1).now - startedAt := le_sub_iff_add_le'.2 hpast
      rw [if_neg hstale, if_pos hcrash] at hreads ⊢
      have hnow : ∀ x : Inputs, (FreshId w.db x ∧
          (liveRoundOf game w.db).all fun r => r.Due config x.now) →
          ∀ at_, r.startedAt = some at_ → at_ ≤ x.now := by
        intro x hx at_ hat
        have hx' := hx.2
        rw [hlive, Option.all_some, decide_eq_true_eq] at hx'
        unfold Round.Due at hx'
        simp only [hr'] at hx'
        exact (hx' at_ hat).1
      obtain ⟨hok, u, ⟨ht, hu⟩, hmoved⟩ :=
        finish_of_ends (ends_resolveRound hr hsound hr' hnow) hreads
      exact ⟨hok, hmoved ▸ .moved ht (by rw [hu]; decide)⟩
  | RESOLVED =>
    simp only [hr'] at hreads ⊢
    have hxs : SettleDraws r.id (fun n => xs (n + 2)) w.db := hreads.mono fun _ _ hx => hx.1
    have hok := settleRound_resolved h hxs hr hr' hfits.1
    exact ⟨hok, .settled hr' ((settleRound_ends h hxs hr hr').1 hok)⟩
  | SETTLED =>
    rw [hr'] at hstatus
    rcases hstatus with hstatus | hstatus <;> cases hstatus
  | VOIDED =>
    rw [hr'] at hstatus
    rcases hstatus with hstatus | hstatus <;> cases hstatus

/-! ## What a tick leaves for the next one -/

/-- The greatest of a list whose elements are changed without changing what is compared. -/
theorem greatest_map {α : Type} {f : α → ℕ} {g : α → α} {l : List α}
    (hg : ∀ a ∈ l, f (g a) = f a) : greatest f (l.map g) = (greatest f l).map g := by
  induction l with
  | nil => rfl
  | cons a rest ih =>
    obtain ⟨ha, hrest⟩ := List.forall_mem_cons.1 hg
    rw [List.map_cons]
    unfold greatest
    rw [ih hrest]
    cases hfound : greatest f rest with
    | none => rfl
    | some b =>
      have hb := hg b (List.mem_cons_of_mem a (greatest_mem hfound).1)
      simp only [Option.map_some, ha, hb]
      split <;> rfl

/-- A round that has moved on, but not to its end, is still the one that a tick looks at. -/
theorem liveRoundOf_moved (hs : Lifecycle s) (hlive : liveRoundOf game s = some r)
    {u : RoundUpdate} (hu : (u.row r).status.rank < 4) :
    liveRoundOf game (s.moved r.id u) = some (u.row r) := by
  obtain ⟨hmem, hgame, hstatus⟩ := liveRoundOf_some hlive
  have hon : ((u.row r).status.isLive || (u.row r).status == .RESOLVED) = true := by
    revert hu
    cases (u.row r).status <;> decide
  let g : Round → Round := fun q => if q.id = r.id then u.row q else q
  let on : Round → Bool := fun q => q.game == game && (q.status.isLive || q.status == .RESOLVED)
  have hself : g r = u.row r := if_pos rfl
  have hkeep : ∀ q ∈ s.rounds, on (g q) = on q := by
    intro q hq
    by_cases hid : q.id = r.id
    · obtain rfl : q = r := eq_of_key hs.ids hq hmem hid
      have hbefore : (q.status.isLive || q.status == .RESOLVED) = true := by
        rcases hstatus with h | h <;> simp [h]
      simp only [on, hself, hon, hbefore]
      rfl
    · rw [show g q = q from if_neg hid]
  have hfilter : (s.moved r.id u).rounds.filter on = (s.rounds.filter on).map g := by
    show (s.rounds.map g).filter on = _
    rw [List.filter_map]
    exact congrArg (List.map g) (List.filter_congr hkeep)
  have hgreatest : greatest Round.nonce (s.rounds.filter on) = some r := hlive
  show greatest Round.nonce ((s.moved r.id u).rounds.filter on) = _
  rw [hfilter, greatest_map, hgreatest, Option.map_some, hself]
  intro q _
  by_cases hid : q.id = r.id
  · rw [show g q = u.row q from if_pos hid]
    rfl
  · rw [show g q = q from if_neg hid]

/-- A transition that only changes the round leaves its amounts as they are. -/
theorem Db.Completable.moved (h : s.Completable r) (u : RoundUpdate) :
    (s.moved r.id u).Completable (u.row r) :=
  ⟨⟨h.1.stakes, h.1.wallets, h.1.lowest, h.1.highest⟩, h.2⟩

/-- Where the round is after a tick. -/
theorem Advanced.next (h : Advanced s r s') (hr : s.round r.id = some r) :
    ∃ r', s'.round r.id = some r' ∧ r.status.Next r'.status := by
  cases h with
  | @moved u ht hu => exact ⟨u.row r, lookup_modify_self (RoundUpdate.row_id u) hr, ht.next⟩
  | settled hstatus hchanges =>
    obtain ⟨now, hrow⟩ := hchanges.round
    exact ⟨_, hrow, hstatus ▸ .settle⟩
  | voided hstatus hchanges =>
    obtain ⟨now, hrow⟩ := hchanges.round
    exact ⟨_, hrow, hstatus ▸ .voidRunning⟩

/-- A round that is not at its end after a tick is what the next one looks at, with its amounts. -/
theorem Advanced.goes_on (h : Advanced s r s') (hs : Lifecycle s)
    (hlive : liveRoundOf game s = some r) (hfits : s.Completable r) {r' : Round}
    (hr' : s'.round r.id = some r') (hrank : r'.status.rank < 4) :
    liveRoundOf game s' = some r' ∧ s'.Completable r' := by
  have hr := hs.round_of_mem (liveRoundOf_some hlive).1
  cases h with
  | @moved u ht hu =>
    obtain rfl : u.row r = r' :=
      Option.some.inj ((lookup_modify_self (RoundUpdate.row_id u) hr).symm.trans hr')
    exact ⟨liveRoundOf_moved hs hlive hu, hfits.moved u⟩
  | settled hstatus hchanges =>
    obtain ⟨now, hrow⟩ := hchanges.round
    rw [hr'] at hrow
    obtain rfl := Option.some.inj hrow
    exact absurd hrank (Nat.lt_irrefl 4)
  | voided hstatus hchanges =>
    obtain ⟨now, hrow⟩ := hchanges.round
    rw [hr'] at hrow
    obtain rfl := Option.some.inj hrow
    exact absurd hrank (Nat.lt_irrefl 4)

/-! ## Ticks one after the other -/

/-- The lookup of the chain gives its locks back. -/
theorem chainFor_releases (nonce : ℕ) : (chainFor config crypto nonce).Releases database := by
  refine .bind (.select _) fun found => ?_
  cases found with
  | some chain => exact .done _
  | none =>
    exact .bind .read fun x => .bind (.done _) fun seed => .bind (.transaction _) fun _ => .done _

/-- So does drawing an outcome. -/
theorem drawOutcome_releases (nonce : ℕ) : (drawOutcome config crypto nonce).Releases database := by
  refine .bind (chainFor_releases nonce) fun chain => .bind (.select _) fun row => ?_
  cases row with
  | none => exact .done _
  | some row => exact .bind (.done _) fun seed => .bind (.done _) fun verified => .done _

/-- So does opening a round. -/
theorem openRoundIfDue_releases : (openRoundIfDue config crypto game).Releases database := by
  have hopen : (openRound config crypto game).Releases database := by
    refine .bind (.select _) fun nonce => .bind (drawOutcome_releases nonce) fun outcome =>
      .bind (.done _) fun pocket => .handle ?_ fun r => ?_
    · exact .bind (.transaction _) fun id => .bind (.transaction _) fun _ => .done _
    · cases r with
      | ok a => exact .done _
      | error e =>
        show Program.Releases database (if _ then _ else _)
        split
        · exact .done _
        · exact .done _
  refine .bind (.select _) fun last => ?_
  cases last.bind Round.settledAt with
  | none => exact hopen
  | some settledAt =>
    refine .bind .read fun x => ?_
    split
    · exact .done _
    · exact hopen

/-- So does a tick. -/
theorem tickGame_releases : (tickGame config crypto game).Releases database := by
  refine .bind (.select _) fun found => ?_
  cases found with
  | none => exact .bind openRoundIfDue_releases fun _ => .done _
  | some live =>
    refine .bind .read fun x => ?_
    show Program.Releases database (live.advance config x.now)
    unfold Round.advance
    cases live.status with
    | OPEN =>
      dsimp only
      split
      · exact .transaction _
      · exact .done _
    | LOCKED => exact .transaction _
    | RUNNING =>
      cases live.startedAt with
      | none => exact .done _
      | some startedAt =>
        dsimp only
        split
        · exact .transaction _
        · split
          · refine .bind (.select _) fun found => ?_
            cases found with
            | none => exact .done _
            | some round => exact .transaction _
          · exact .done _
    | RESOLVED => exact .transaction _
    | SETTLED => exact .done _
    | VOIDED => exact .done _

/-- Some ticks by themselves, one after the other, each when the deadline has passed of the round
that it finds. -/
inductive Ticking (config : Config) (crypto : Crypto) (game : GameKind) : ℕ → Db → Db → Prop
  | none (s : Db) : Ticking config crypto game 0 s s
  | tick {n : ℕ} {s s' : Db} {xs : ℕ → Inputs} (before : Ticking config crypto game n s s')
      (reads : TickReads config crypto game xs s') :
      Ticking config crypto game (n + 1) s (tickAfter config crypto game xs s')

/-- A tick in a pool in which nobody holds a lock. -/
theorem tickGame_called (config : Config) (crypto : Crypto) (game : GameKind) {w : System}
    (hidle : w.Idle) (xs : ℕ → Inputs) :
    ∃ w', World.Run database (program config crypto) (fun _ _ => True) w w' ∧ w'.Idle ∧
      w'.db = tickAfter config crypto game xs w.db := by
  have hreleases : (program config crypto (.tickGame game)).Releases database :=
    .bind tickGame_releases fun _ => .done _
  refine ⟨_, World.Run.call hidle (.tickGame game) xs, hidle.called hreleases xs, ?_⟩
  unfold World.called Tessera.program
  rw [Program.finish_map]
  rfl

/-- Where the live round stands after some ticks: at its end, or on the way to it. -/
structure OnItsWay (config : Config) (crypto : Crypto) (game : GameKind) (r : Round) (n : ℕ)
    (w : System) (r' : Round) : Prop where
  reached : Reaches config crypto w
  idle : w.Idle
  row : w.db.round r.id = some r'
  far : min 4 (r.status.rank + n) ≤ r'.status.rank
  next : r'.status.rank < 4 → liveRoundOf game w.db = some r' ∧ w.db.Completable r'

/-- One tick more. -/
theorem OnItsWay.tick {w : System} {n : ℕ} {r r' : Round} {xs : ℕ → Inputs}
    (h : OnItsWay config crypto game r n w r') (hxs : TickReads config crypto game xs w.db) :
    ∃ w' r'', OnItsWay config crypto game r (n + 1) w' r'' ∧
      w'.db = tickAfter config crypto game xs w.db := by
  obtain ⟨w', hrun, hidle, hdb⟩ := tickGame_called config crypto game h.idle xs
  have hreached : Reaches config crypto w' := h.reached.trans hrun
  have hid : r'.id = r.id := lookup_key h.row
  by_cases hrank : r'.status.rank < 4
  · obtain ⟨hlive, hfits⟩ := h.next hrank
    obtain ⟨-, hadvanced⟩ := tickGame_due h.reached hlive hxs hfits
    rw [← hdb] at hadvanced
    have hlifecycle := reaches_lifecycle h.reached
    obtain ⟨r'', hrow, hnext⟩ := hadvanced.next (hid ▸ h.row)
    have hfar := h.far
    have hlt := hnext.rank_lt
    refine ⟨w', r'', ⟨hreached, hidle, hid ▸ hrow, by omega, fun hrank' => ?_⟩, hdb⟩
    exact hadvanced.goes_on hlifecycle hlive hfits hrow hrank'
  · have hover : r'.status = .SETTLED ∨ r'.status = .VOIDED := by
      cases hstatus : r'.status with
      | SETTLED => exact .inl rfl
      | VOIDED => exact .inr rfl
      | _ =>
        rw [hstatus] at hrank
        exact absurd (by decide) hrank
    obtain ⟨r'', hrow, hbecomes⟩ := reaches_roundsMove h.reached hrun r.id r' h.row
    rw [hbecomes.final hover] at hrow
    exact ⟨w', r', ⟨hreached, hidle, hrow, by omega, fun h => absurd h hrank⟩, hdb⟩

/-- No round gets stuck.  From every state that the system reaches, when nobody else is at work and
the amounts are small enough, each tick after the deadline moves the live round on and commits, so
that four ticks at most bring it to its end. -/
theorem ticks_finish {w : System} (h : Reaches config crypto w) (hidle : w.Idle)
    (hlive : liveRoundOf game w.db = some r) (hfits : w.db.Completable r) {n : ℕ}
    (hticks : Ticking config crypto game n w.db s') :
    ∃ r', s'.round r.id = some r' ∧ min 4 (r.status.rank + n) ≤ r'.status.rank ∧
      (r'.status.rank < 4 → ∀ xs, TickReads config crypto game xs s' →
        tickCommits config crypto game xs s' = true) := by
  have hway : ∃ w' r', OnItsWay config crypto game r n w' r' ∧ w'.db = s' := by
    generalize hstart : w.db = s at hticks
    induction hticks with
    | none s =>
      have hr := (reaches_lifecycle h).round_of_mem (liveRoundOf_some hlive).1
      exact ⟨w, r, ⟨h, hidle, hr, min_le_right _ _, fun _ => ⟨hlive, hfits⟩⟩, hstart⟩
    | tick hbefore hreads ih =>
      obtain ⟨w', r', hway, rfl⟩ := ih hstart
      obtain ⟨w'', r'', hway', hdb⟩ := hway.tick hreads
      exact ⟨w'', r'', hway', hdb⟩
  obtain ⟨w', r', hway, rfl⟩ := hway
  refine ⟨r', hway.row, hway.far, fun hrank xs hxs => ?_⟩
  obtain ⟨hlive', hfits'⟩ := hway.next hrank
  exact (tickGame_due hway.reached hlive' hxs hfits').1

end

instance (s : Db) (roundId : Uuid) : Decidable (s.Refundable roundId) :=
  decidable_of_iff
    (∀ b ∈ s.activeBets roundId, (s.walletOf b.userId).all fun w =>
      Js.isSafeInteger (s.balanceOf w + refundsOf (s.activeBets roundId) b.userId)) <| by
    simp only [Option.all_eq_true]
    exact Iff.rfl

instance (w : System) : Decidable w.Idle :=
  inferInstanceAs (Decidable (∀ t ∈ w.sessions, t.standing.held = []))

/-- The small game while bets are still taken. -/
def openGame : List (Event Inputs Call) := smallGame.take 286

/-- The readings of the ticks that follow. -/
def tickReadings (k n : ℕ) : Inputs := readingAt (3000 + 500 * k + n) (15000 + 6000 * k)

/-- The tables after some of them. -/
def afterTicks : ℕ → Db
  | 0 => (executed openGame).db
  | k + 1 => tickAfter smallConfig plainCrypto .ROULETTE (tickReadings k) (afterTicks k)

/-- The ticks of the example, one after the other. -/
theorem ticking_afterTicks {n : ℕ} (h : ∀ k < n,
    TickReads smallConfig plainCrypto .ROULETTE (tickReadings k) (afterTicks k)) :
    Ticking smallConfig plainCrypto .ROULETTE n (executed openGame).db (afterTicks n) := by
  induction n with
  | zero => exact .none _
  | succ n ih => exact .tick (ih fun k hk => h k (Nat.lt_succ_of_lt hk)) (h n (Nat.lt_succ_self n))

/-- The roulette round with its two bets is at its end after four ticks. -/
theorem ticks_finish_openGame :
    ∃ r, liveRoundOf .ROULETTE (executed openGame).db = some r ∧ r.status = .OPEN ∧
      ((executed openGame).db.activeBets r.id).map (fun b => b.stakeMinor.minor) = [1000, 700] ∧
      ∃ r', (afterTicks 4).round r.id = some r' ∧ 4 ≤ r'.status.rank := by
  have hsome : (liveRoundOf .ROULETTE (executed openGame).db).isSome = true := by decide +kernel
  obtain ⟨r, hr⟩ := Option.isSome_iff_exists.1 hsome
  have hround : (liveRoundOf .ROULETTE (executed openGame).db).all (fun r =>
      decide (r.status = .OPEN ∧ (executed openGame).db.Settleable r ∧
        (executed openGame).db.Refundable r.id ∧
        ((executed openGame).db.activeBets r.id).map (fun b => b.stakeMinor.minor) =
          [1000, 700])) = true := by
    decide +kernel
  rw [hr, Option.all_some, decide_eq_true_eq] at hround
  obtain ⟨hopen, hsettleable, hrefundable, hstakes⟩ := hround
  have hidle : (executed openGame).Idle := by decide +kernel
  have hreads : ∀ k < 4,
      TickReads smallConfig plainCrypto .ROULETTE (tickReadings k) (afterTicks k) := by
    decide +kernel
  obtain ⟨r', hrow, hfar, -⟩ := ticks_finish (reaches_executed openGame) hidle hr
    ⟨hsettleable, hrefundable⟩ (ticking_afterTicks hreads)
  rw [hopen] at hfar
  exact ⟨r, hr, hopen, hstakes, r', hrow, hfar⟩

end Tessera
