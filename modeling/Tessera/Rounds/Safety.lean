import Tessera.Books.System
import Tessera.Database.Overlay
import Tessera.Rounds.Transitions

/-!
# The lifecycle of every round, whatever its engines do

Any number of processes tick, call the transitions directly and place bets, each on what it read
some time ago.  Whatever a transaction commits to `rounds` is still one opening or one
transition of the row as it then is.

* `lifecycle` — the discipline: the books, and the lifecycles on top of them;
* `lockRound_safe`, …, `openRoundIfDue_safe` — what each call commits to `rounds`;
* `lifecycle_verified` — every call keeps the lifecycles;
* `reachable_lifecycle` — the lifecycles along every run.
-/

namespace Tessera

open Relational Transactions Transactions.Program

/-- The books and the lifecycles. -/
def lifecycle (config : Config) : Discipline Db LockKey Write :=
  (books config).upon Lifecycle RoundsMove

/-- What one transaction may commit to `rounds`. -/
def roundCommits (s : Db) (rows : List Write) : Prop := RoundChange s (rowsOn .rounds rows)

/-- The terms of every call. -/
abbrev roundTerms : Terms Db LockKey Write := .committing roundCommits

/-- Drawing from a sequence changes no round. -/
theorem isDraw_rounds {w : Write} (hw : w.isDraw = true) (s : Db) :
    (s.apply w).rounds = s.rounds :=
  (w.isDraw_same hw s).2

/-- A layer can be put upon the lifecycle. -/
theorem lifecycle_base (config : Config) : Base (lifecycle config) :=
  (books_base config).upon RoundsMove.refl RoundsMove.trans fun hs hw =>
    ⟨hs.of_eq (isDraw_rounds hw _), .of_eq (isDraw_rounds hw _)⟩

section
variable {config : Config} {crypto : Crypto} {f f' : Standing Db LockKey Write} {s s' : Db}
variable {α : Type} {roundId : Uuid} {tables : List Table}

/-- The lifecycle with these terms: nothing is asked of row locks or draws. -/
theorem lifecycle_overlay (config : Config) : Overlay (lifecycle config).eased roundTerms :=
  (lifecycle_base config).overlay _

/-! ## Ready to commit -/

/-- What is pending for `rounds` is a change of the table, now and whatever the others do. -/
def RoundReady (config : Config) (f : Standing Db LockKey Write) (s : Db) : Prop :=
  Transactions.Ready (lifecycle config).eased roundCommits f s

/-- A session without a round among its writes may commit. -/
theorem RoundReady.untouched (h : rowsOn .rounds f.pending = []) : RoundReady config f s := by
  intro s' _
  show RoundChange s' (rowsOn .rounds f.pending)
  rw [h]
  exact .none

/-- One transition of a round that is locked may be committed. -/
theorem RoundReady.moved {row : Round} {u : RoundUpdate}
    (hlock : (.round roundId, .exclusive) ∈ f.held) (hrow : s.round roundId = some row)
    (ht : Transition row u) (hu : (u.row row).violated = none)
    (hf : rowsOn .rounds f.pending = [.updateRound roundId u]) : RoundReady config f s := by
  intro s' hs'
  show RoundChange s' (rowsOn .rounds f.pending)
  rw [hf]
  exact .moved ((((lifecycle_overlay config).kept hs' hlock).1).trans hrow) ht hu

/-- A part that writes no round leaves a session ready to commit. -/
theorem RoundReady.onward (h : RoundReady config f s)
    (ho : Onward (lifecycle config).eased (fun w => w.table ∈ tables) f s f' s')
    (ht : .rounds ∉ tables) : RoundReady config f' s' := by
  intro s'' hs''
  show RoundChange s'' (rowsOn .rounds f'.pending)
  rw [rowsOn_onward ho ht]
  exact h s'' (ho.rely.trans (lifecycle_overlay config).lax.regular (hs''.mono ho.kept))

/-- The block of a transaction ends ready to commit. -/
def RoundEnds (config : Config) : Post Db LockKey Write AppError α :=
  EndsReady (lifecycle config).eased roundCommits

/-- A transaction whose body is ready at its end keeps the terms. -/
theorem wp_roundTransaction {body : Action α}
    (h : wp database (lifecycle config).eased roundTerms body f s (RoundEnds config)) :
    wp database (lifecycle config).eased roundTerms (transaction body) f s fun _ f' _ =>
      rowsOn .rounds f'.pending = [] :=
  wp_mono (fun _ _ _ hr => by rw [hr]; rfl) (wp_transaction_ready h)

/-- The last part of a transaction, once it is ready. -/
theorem wp_lastPart {p : Action α} (h : RoundReady config f s)
    (hs : (lifecycle config).eased.inv s) (hp : Touches tables p) (ht : .rounds ∉ tables) :
    wp database (lifecycle config).eased roundTerms p f s (RoundEnds config) :=
  wp_mono (fun _ _ _ ho _ _ => h.onward ho ht) ((lifecycle_overlay config).part hp hs)

/-- The announcement of a round writes no round. -/
theorem publishIfChanged_touches {changed : ℕ} :
    Touches [.notifications] (publishIfChanged roundId changed) := by
  unfold publishIfChanged
  split
  · exact publish_touches
  · trivial

/-! ## The first steps of a life -/

/-- A conditional update and its notification. -/
theorem wp_step {from_ : RoundStatus → Bool} {u : RoundUpdate}
    (hf : rowsOn .rounds f.pending = [])
    (ht : ∀ s' row, Rely (lifecycle config).eased f.held s s' → s'.round roundId = some row →
      from_ row.status = true → Transition row u) :
    wp database (lifecycle config).eased roundTerms
      (do publishIfChanged roundId (← updateRoundWhere roundId from_ u)) f s
      (RoundEnds config) := by
  refine wp_bind.2 ((lifecycle_overlay config).updateRoundWhere hf (fun f₁ s₁ h₁ _ => ?_)
    (fun f₁ s₁ row h₁ _ hlock hrow hfrom hu hpending => ?_) fun _ _ _ => endsReady_error)
  · exact wp_lastPart (.untouched (by rw [h₁.still]; exact hf)) h₁.rely.inv
      publishIfChanged_touches (by simp)
  · refine wp_lastPart (.moved hlock hrow (ht s₁ row h₁.rely hrow hfrom) hu ?_) h₁.rely.inv
      publishIfChanged_touches (by simp)
    rw [hpending, rowsOn_append, hf]
    rfl

/-- `lockRound` takes an open round to LOCKED, or changes nothing. -/
theorem lockRound_safe (hf : rowsOn .rounds f.pending = []) :
    wp database (lifecycle config).eased roundTerms (lockRound roundId) f s fun _ f' _ =>
      rowsOn .rounds f'.pending = [] :=
  wp_roundTransaction (wp_step hf fun _ _ _ _ hfrom => .lock (by simpa using hfrom))

/-- `startRound` takes a locked round to RUNNING, or changes nothing. -/
theorem startRound_safe (hf : rowsOn .rounds f.pending = []) :
    wp database (lifecycle config).eased roundTerms (startRound roundId) f s fun _ f' _ =>
      rowsOn .rounds f'.pending = [] :=
  wp_roundTransaction (wp_bind.2 (wp_read fun x => onValue_ok
    (wp_step hf fun _ _ _ _ hfrom => .start (by simpa using hfrom) x.now)))

/-- `resolveRound` takes a running round to RESOLVED, or changes nothing. -/
theorem resolveRound_safe (hf : rowsOn .rounds f.pending = []) :
    wp database (lifecycle config).eased roundTerms (resolveRound roundId) f s fun _ f' _ =>
      rowsOn .rounds f'.pending = [] := by
  refine wp_bind.2 (wp_selectOnward fun f₁ s₁ h₁ => onValue_ok ?_)
  have hf₁ : rowsOn .rounds f₁.pending = [] := by rw [h₁.still]; exact hf
  cases hround : (f₁.view database s₁).round roundId with
  | none => exact wp_throw hf₁
  | some round =>
    rw [round_view hf₁] at hround
    refine wp_roundTransaction (wp_bind.2 (wp_read fun x => onValue_ok (wp_step hf₁ ?_)))
    -- the seed read before is the seed of the row that is updated
    intro s₂ row h₂ hrow hfrom
    obtain ⟨row', hrow', hcore⟩ := ((lifecycle_overlay config).grows h₂.grows).round hround
    obtain rfl : row = row' := Option.some.inj (hrow.symm.trans hrow')
    have hseed : row.core.seed = round.core.seed := congrArg Round.seed hcore
    change row.seed = round.seed at hseed
    rw [← hseed]
    exact .resolve (by simpa using hfrom) x.now

/-! ## The two ends -/

/-- The bets of the round are locked and closed, one after the other. -/
theorem wp_closeAll {body : Bet → Action Unit} (hbody : ∀ bet, Touches closingTables (body bet))
    {k : Unit → Action Unit} (hs : (lifecycle config).eased.inv s)
    (hk : ∀ f' s', Onward (lifecycle config).eased (fun w => w.table ∈ closingTables) f s f' s' →
      wp database (lifecycle config).eased roundTerms (k ()) f' s' (RoundEnds config)) :
    wp database (lifecycle config).eased roundTerms
      (lockActiveBets roundId >>= fun activeBets => forEach body activeBets >>= k) f s
      (RoundEnds config) := by
  have hO := lifecycle_overlay config
  refine wp_bind.2 (wp_mono (fun r f₁ s₁ h₁ => ?_)
    (hO.part (lockActiveBets_touches : Touches closingTables _) hs))
  cases r with
  | error e => exact endsReady_error
  | ok activeBets =>
    refine wp_bind.2 (wp_mono (fun r f₂ s₂ h₂ => ?_)
      (hO.part (Within.forEach fun bet _ => hbody bet) h₁.rely.inv))
    cases r with
    | error e => exact endsReady_error
    | ok _ => exact hk f₂ s₂ (h₁.trans hO.lax.regular h₂)

/-- `settleRound` takes a resolved round to SETTLED, or changes nothing. -/
theorem settleRound_safe (hf : rowsOn .rounds f.pending = []) :
    wp database (lifecycle config).eased roundTerms (settleRound roundId) f s fun _ f' _ =>
      rowsOn .rounds f'.pending = [] := by
  have hO := lifecycle_overlay config
  refine wp_roundTransaction (wp_bind.2 (hO.selectForLock (.round roundId)
    (fun _ _ hrow => congrArg LockKey.round (lookup_key hrow)) (fun f₁ s₁ h₁ _ => ?_)
    fun f₁ s₁ row h₁ hlock hrow => onValue_ok ?_))
  · exact onValue_ok (wp_pure fun _ _ => RoundReady.untouched (by rw [h₁.still]; exact hf))
  have hf₁ : rowsOn .rounds f₁.pending = [] := by rw [h₁.still]; exact hf
  dsimp only
  split
  · exact wp_pure fun _ _ => RoundReady.untouched hf₁
  · refine wp_closeAll (fun _ => settleBet_touches) h₁.rely.inv fun f₂ s₂ h₂ => ?_
    have hf₂ : rowsOn .rounds f₂.pending = [] := (rowsOn_onward h₂ (by simp)).trans hf₁
    refine wp_bind.2 (wp_read fun x => onValue_ok (wp_bind.2 (hO.updateRoundWhere hf₂
      (fun f₃ s₃ h₃ _ => ?_) (fun f₃ s₃ row' h₃ _ hlock' hrow' hfrom hu hpending => ?_)
      fun _ _ _ => endsReady_error)))
    · exact wp_lastPart (.untouched (by rw [h₃.still]; exact hf₂)) h₃.rely.inv
        publish_touches (by simp)
    · refine wp_lastPart (.moved hlock' hrow' (.settle (by simpa using hfrom) x.now) hu ?_)
        h₃.rely.inv publish_touches (by simp)
      rw [hpending, rowsOn_append, hf₂]
      rfl

/-- A sound row that the constraints let be voided is live. -/
theorem Round.Sound.live_of_void {row : Round} (hrow : row.Sound) {u : RoundUpdate}
    (hstatus : u.status = .VOIDED) (hresolved : u.resolvedAt = none)
    (hu : (u.row row).violated = none) (hover : ¬(row.status = .VOIDED ∨ row.status = .SETTLED)) :
    row.status.isLive = true := by
  cases hcase : row.status with
  | RESOLVED =>
    have hsome := hrow.resolved (.inl hcase)
    have hnone := (Round.checked hu).voided hstatus
    simp only [RoundUpdate.row, hresolved, Option.none_or] at hnone
    rw [hnone] at hsome
    cases hsome
  | SETTLED => exact absurd (.inr hcase) hover
  | VOIDED => exact absurd (.inl hcase) hover
  | _ => rfl

/-- `voidRound` takes a round that is not resolved yet to VOIDED, or changes nothing. -/
theorem voidRound_safe (hf : rowsOn .rounds f.pending = []) :
    wp database (lifecycle config).eased roundTerms (voidRound roundId) f s fun _ f' _ =>
      rowsOn .rounds f'.pending = [] := by
  have hO := lifecycle_overlay config
  have hR := hO.lax.regular
  refine wp_roundTransaction (wp_bind.2 (hO.selectForLock (.round roundId)
    (fun _ _ hrow => congrArg LockKey.round (lookup_key hrow)) (fun f₁ s₁ h₁ _ => ?_)
    fun f₁ s₁ row h₁ hlock hrow => onValue_ok ?_))
  · exact onValue_ok (wp_pure fun _ _ => RoundReady.untouched (by rw [h₁.still]; exact hf))
  have hf₁ : rowsOn .rounds f₁.pending = [] := by rw [h₁.still]; exact hf
  rw [round_view hf₁] at hrow
  dsimp only
  split
  · exact wp_pure fun _ _ => RoundReady.untouched hf₁
  case isFalse hover =>
    refine wp_closeAll (fun _ => refundBet_touches) h₁.rely.inv fun f₂ s₂ h₂ => ?_
    have hf₂ : rowsOn .rounds f₂.pending = [] := (rowsOn_onward h₂ (by simp)).trans hf₁
    refine wp_bind.2 (wp_read fun x => onValue_ok (wp_bind.2 (hO.updateRoundWhere hf₂
      (fun f₃ s₃ h₃ _ => ?_) (fun f₃ s₃ row' h₃ _ hlock' hrow' _ hu hpending => ?_)
      fun _ _ _ => endsReady_error)))
    · exact wp_lastPart (.untouched (by rw [h₃.still]; exact hf₂)) h₃.rely.inv
        publish_touches (by simp)
    -- the row is the one that was locked, and a resolved one cannot be voided
    have hsame := (hO.kept (h₂.toLater.trans hR h₃).rely hlock).1
    obtain rfl : row' = row := Option.some.inj (hrow'.symm.trans (hsame.trans hrow))
    have hlive := (h₃.rely.inv.2.sound row' (lookup_mem hrow')).live_of_void rfl rfl hu hover
    refine wp_lastPart (.moved hlock' hrow' (.void hlive x.now) hu ?_)
      h₃.rely.inv publish_touches (by simp)
    rw [hpending, rowsOn_append, hf₂]
    rfl

/-! ## Opening a round -/

/-- Writes to the other tables, in any number of transactions. -/
theorem untouched_safe {p : Action α}
    (hp : p.Writes (fun _ => []) (fun w => w.table ≠ .rounds) (fun w => w.isDraw = true) f.held)
    (hf : rowsOn .rounds f.pending = []) :
    wp database (lifecycle config).eased roundTerms p f s fun _ f' _ =>
      rowsOn .rounds f'.pending = [] := by
  refine wp_mono (fun _ _ _ hr => rowsOn_eq_nil hr) ((lifecycle_overlay config).untouched
    (fun s rows hrows => ?_) hp fun w hw hw' => ?_)
  · show RoundChange s (rowsOn .rounds rows)
    rw [rowsOn_eq_nil hrows]
    exact .none
  · have hmem : w ∈ rowsOn .rounds f.pending := List.mem_filter.2 ⟨hw, by simp [hw']⟩
    rw [hf] at hmem
    cases hmem

/-- A new row as `openRoundIfDue` writes it. -/
theorem Round.Sound.of_open {r : Round} (hchecks : r.violated = none) (hstatus : r.status = .OPEN)
    (hstarted : r.startedAt = none) (hrevealed : r.seedRevealed = none) : r.Sound where
  checks := hchecks
  waiting _ := hstarted
  resolved h := by
    rw [hstatus] at h
    rcases h with h | h <;> cases h
  revealed := by
    rw [hstatus, hrevealed]
    rfl

/-- A new round that is open, of a game without a live one, may be committed. -/
theorem RoundReady.opened {r : Round} {chainId : Uuid} {index : ℤ}
    (h : RoundInserted (lifecycle config).eased r chainId index f s) (hstatus : r.status = .OPEN)
    (hsound : r.Sound) (hf : rowsOn .rounds f.pending = [.insertRound r]) :
    RoundReady config f s := by
  have hO := lifecycle_overlay config
  intro s' hs'
  show RoundChange s' (rowsOn .rounds f.pending)
  rw [hf]
  have hid : (.round r.id, .exclusive) ∈ f.held := h.held (by simp [needs])
  refine .opened (((hO.kept hs' hid).1).trans h.id) hstatus hsound fun q hq hgame => ?_
  -- the round was there when the index of live rounds was entered, and not live
  obtain ⟨f₁, s₁, hl, hlock, hs₁, hfree⟩ := h.live
  have hrely := hl.wait hO.lax.regular hs'
  have hsame : s'.roundsOf r.game = s₁.roundsOf r.game := hO.kept hrely.rely hlock
  have hmem : q.id ∈ s₁.roundsOf r.game := by
    rw [← hsame]
    exact List.mem_map.2 ⟨q, List.mem_filter.2 ⟨hq, by simp [hgame]⟩, rfl⟩
  obtain ⟨q₁, hq₁, hid₁⟩ := List.mem_map.1 hmem
  obtain ⟨hq₁, hgame₁⟩ := List.mem_filter.1 hq₁
  have hdead : q₁.status.isLive = false := by
    rw [hstatus] at hfree
    by_contra hlive
    have hany : (s₁.rounds.any fun q => q.game == r.game && q.status.isLive) = true :=
      List.any_eq_true.2 ⟨q₁, hq₁, by simpa using ⟨by simpa using hgame₁, Bool.not_eq_false _ ▸ hlive⟩⟩
    rw [hany] at hfree
    cases hfree
  obtain ⟨q', hq', hb⟩ := hrely.rely.grows.2 q₁.id q₁ (hs₁.2.round_of_mem hq₁)
  have hround := hs'.inv.2.round_of_mem hq
  rw [← hid₁, hq'] at hround
  exact Option.some.inj hround ▸ hb.status.not_live hdead

/-- The round that was drawn is inserted open, or a constraint rejects it. -/
theorem openDrawnRound_safe {game : GameKind} {outcome : RoundOutcome} {pocket : Option ℤ}
    (hf : rowsOn .rounds f.pending = []) :
    wp database (lifecycle config).eased roundTerms (openDrawnRound config game outcome pocket)
      f s fun _ f' _ => rowsOn .rounds f'.pending = [] := by
  have hO := lifecycle_overlay config
  have hinsert : wp database (lifecycle config).eased roundTerms
      (insertDrawnRound config game outcome pocket) f s (RoundEnds config) := by
    refine wp_bind.2 (wp_read fun x => onValue_ok (wp_bind.2 (wp_draw (fun _ _ => trivial)
      fun s₁ h₁ => onValue_ok (wp_bind.2 ?_))))
    refine hO.insertRound rfl rfl hf (fun f₂ s₂ h₂ hpending hinserted => ?_)
      fun _ _ _ => endsReady_error
    refine onValue_ok (wp_pure fun _ _ => RoundReady.opened hinserted rfl ?_ ?_)
    · exact .of_open hinserted.checks rfl rfl rfl
    · rw [hpending, rowsOn_append, hf]
      rfl
  refine wp_bind.2 (wp_mono (fun r f₁ s₁ hf₁ => ?_) (wp_roundTransaction hinsert))
  cases r with
  | error e => exact hf₁
  | ok id =>
    have hpublish : (autocommit (publish (.roundState id))).Writes (fun _ => [])
        (fun w => w.table ≠ .rounds) (fun w => w.isDraw = true) f₁.held :=
      Within.transaction (Within.mono (fun w hw => by simp [List.mem_singleton.1 hw]) publish_touches)
    refine wp_bind.2 (wp_mono (fun r f₂ s₂ hf₂ => ?_) (untouched_safe hpublish hf₁))
    cases r with
    | error e => exact hf₂
    | ok _ => exact hf₂

/-- So it is after the draw. -/
theorem openRound_safe {game : GameKind} (hf : rowsOn .rounds f.pending = []) :
    wp database (lifecycle config).eased roundTerms (openRound config crypto game) f s
      fun _ f' _ => rowsOn .rounds f'.pending = [] := by
  refine wp_bind.2 (wp_selectOnward fun f₁ s₁ h₁ => onValue_ok ?_)
  have hf₁ : rowsOn .rounds f₁.pending = [] := by rw [h₁.still]; exact hf
  refine wp_bind.2 (wp_mono (fun r f₂ s₂ hf₂ => ?_) (untouched_safe
    (drawOutcome_writes (fun _ => List.nil_subset _) fun _ => by simp [Write.table]) hf₁))
  cases r with
  | error e => exact hf₂
  | ok outcome =>
    refine wp_bind.2 (wp_check ?_)
    generalize (if game = .ROULETTE then _ else _ : Except AppError (Option ℤ)) = pocket
    cases pocket with
    | error e => exact hf₂
    | ok pocket =>
      refine wp_handle.2 (wp_mono (fun r f₃ s₃ hf₃ => ?_) (openDrawnRound_safe hf₂))
      cases r with
      | ok id => exact hf₃
      | error e =>
        dsimp only
        split
        · exact wp_pure hf₃
        · exact wp_throw hf₃

/-- So it is if the last round of the game is over for long enough. -/
theorem openRoundIfDue_safe {game : GameKind} (hf : rowsOn .rounds f.pending = []) :
    wp database (lifecycle config).eased roundTerms (openRoundIfDue config crypto game) f s
      fun _ f' _ => rowsOn .rounds f'.pending = [] := by
  refine wp_bind.2 (wp_selectOnward fun f₁ s₁ h₁ => onValue_ok ?_)
  have hf₁ : rowsOn .rounds f₁.pending = [] := by rw [h₁.still]; exact hf
  cases (lastSettled game (f₁.view database s₁)).bind Round.settledAt with
  | none => exact openRound_safe hf₁
  | some settledAt =>
    refine wp_bind.2 (wp_read fun x => onValue_ok ?_)
    split
    · exact wp_pure hf₁
    · exact openRound_safe hf₁

/-! ## One tick -/

/-- A tick makes one transition at a time, each in a transaction of its own. -/
theorem tickGame_safe {game : GameKind} (hf : rowsOn .rounds f.pending = []) :
    wp database (lifecycle config).eased roundTerms (tickGame config crypto game) f s
      fun _ f' _ => rowsOn .rounds f'.pending = [] := by
  refine wp_bind.2 (wp_selectOnward fun f₁ s₁ h₁ => onValue_ok ?_)
  have hf₁ : rowsOn .rounds f₁.pending = [] := by rw [h₁.still]; exact hf
  cases liveRoundOf game (f₁.view database s₁) with
  | none =>
    refine wp_bind.2 (wp_mono (fun r f₂ s₂ hf₂ => ?_) (openRoundIfDue_safe hf₁))
    cases r with
    | ok id => exact hf₂
    | error e => exact hf₂
  | some live =>
    refine wp_bind.2 (wp_read fun x => onValue_ok ?_)
    dsimp only
    cases live.status with
    | OPEN =>
      dsimp only
      split
      · exact lockRound_safe hf₁
      · exact wp_pure hf₁
    | LOCKED => exact startRound_safe hf₁
    | RUNNING =>
      cases live.startedAt with
      | none => exact wp_pure hf₁
      | some startedAt =>
        dsimp only
        split
        · exact voidRound_safe hf₁
        · split
          · exact resolveRound_safe hf₁
          · exact wp_pure hf₁
    | RESOLVED => exact settleRound_safe hf₁
    | SETTLED => exact wp_pure hf₁
    | VOIDED => exact wp_pure hf₁

/-! ## The whole system -/

/-- A call that writes only other tables. -/
theorem aside_safe (tables : List Table) (ht : .rounds ∉ tables) {p : Action α}
    (hp : WritesTo tables p) :
    wp database (lifecycle config).eased roundTerms p {} s fun _ _ _ => True := by
  have hother : ∀ w : Write, w.table ∈ tables → w.table ≠ .rounds :=
    fun w hw heq => ht (heq ▸ hw)
  exact wp_mono (fun _ _ _ _ => trivial) (untouched_safe (Writes.imp hother hp) rfl)

/-- An answer that is put into a reply changes nothing. -/
theorem reply_safe {g : α → Reply} {p : Action α}
    (hp : wp database (lifecycle config).eased roundTerms p {} s
      fun _ f' _ => rowsOn .rounds f'.pending = []) :
    wp database (lifecycle config).eased roundTerms (g <$> p) {} s fun _ _ _ => True :=
  wp_map (wp_mono (fun _ _ _ _ => trivial) hp)

/-- Every call keeps the lifecycles. -/
theorem call_safe (c : Call) :
    wp database (lifecycle config).eased roundTerms (program config crypto c) {} s
      fun _ _ _ => True := by
  cases c with
  | register dto => exact aside_safe _ (by simp) (Writes.map register_writes)
  | login dto =>
    exact aside_safe [.tokens] (by simp)
      (Writes.map (login_writes (fun _ => List.nil_subset _) fun _ => by simp [Write.table]))
  | refresh rawToken =>
    exact aside_safe [.tokens] (by simp)
      (Writes.map (refresh_writes (fun _ => List.nil_subset _) (fun _ => by simp [Write.table])
        fun _ _ => by simp [Write.table]))
  | logout rawToken =>
    exact aside_safe [.tokens] (by simp)
      (Writes.map (logout_writes (fun _ => List.nil_subset _) fun _ _ => by simp [Write.table]))
  | placeBet input => exact aside_safe _ (by simp) (Writes.map placeBet_writes)
  | cashOut input => exact aside_safe _ (by simp) (Writes.map cashOut_writes)
  | openRoundIfDue game => exact reply_safe (openRoundIfDue_safe rfl)
  | lockRound roundId => exact reply_safe (lockRound_safe rfl)
  | startRound roundId => exact reply_safe (startRound_safe rfl)
  | resolveRound roundId => exact reply_safe (resolveRound_safe rfl)
  | settleRound roundId => exact reply_safe (settleRound_safe rfl)
  | voidRound roundId => exact reply_safe (voidRound_safe rfl)
  | tickGame game => exact reply_safe (tickGame_safe rfl)

/-- The lifecycle as a layer on the books: every call keeps its terms. -/
theorem lifecycle_layer : Layer database (books config) Lifecycle RoundsMove
    (program config crypto) (terms config) (fun _ => roundTerms) fun _ _ _ _ _ => True where
  refl := RoundsMove.refl
  trans := RoundsMove.trans
  commits _ hs _ h := hs.after h
  draws {_ s row} _ hs hdraws _ := by
    have hrounds : (s.apply row).rounds = s.rounds := (sameBooks_draw hdraws).2
    exact ⟨hs.of_eq hrounds, .of_eq hrounds⟩
  stable _ _ _ _ _ _ _ _ := trivial
  lost _ _ _ _ := trivial
  start _ c _ _ _ _ _ := call_safe c

/-- Every call keeps the books and the lifecycles. -/
theorem lifecycle_verified : Verified database (lifecycle config) (program config crypto)
    (fun c => (terms config c).upon roundTerms)
    fun _ c r f s => c.answer r f s ∧ True :=
  (system_verified config crypto).upon lifecycle_layer

/-- There are no rounds at first. -/
theorem migrated_lifecycle : Lifecycle migrated :=
  ⟨List.nodup_nil, List.forall_mem_nil _, List.forall_mem_nil _⟩

/-- The terms ask nothing of the circumstances of a statement. -/
theorem admits_inOrder (w : System) (e : Event Inputs Call) :
    Admits (fun c => (terms config c).upon roundTerms) w e := by
  cases e with
  | start c => exact ⟨trivial, trivial⟩
  | run i x => exact fun _ _ => ⟨trivial, trivial⟩
  | kill i => trivial

/-- In every world reached the rounds are in order, and every session keeps its terms. -/
theorem reachable_inOrder {w : System} (h : Reaches config crypto w) :
    w.Sound database (lifecycle config) (fun c => (terms config c).upon roundTerms)
      fun _ c r f s => c.answer r f s ∧ True :=
  (World.Sound.run lifecycle_verified (fun w e _ => admits_inOrder w e) h
    (.idle ⟨migrated_consistent config, migrated_lifecycle⟩)).1

/-- In every world reached the rounds are in order. -/
theorem reaches_lifecycle {w : System} (h : Reaches config crypto w) : Lifecycle w.db :=
  (reachable_inOrder h).inv.2

/-- Each event moves one round on by at most one transition, or opens one. -/
theorem reaches_roundsStep {w w' : System} (h : Reaches config crypto w) {e : Event Inputs Call}
    (he : w.step database (program config crypto) e = some w') : RoundsStep w.db w'.db := by
  obtain ⟨-, hchange, -⟩ := (reachable_inOrder h).step lifecycle_verified (admits_inOrder w e) he
  generalize w'.db = s' at hchange
  cases hchange with
  | none => exact .of_eq rfl
  | commit _ _ hcommits => exact hcommits.2.step
  | draw _ _ hdraws => exact .of_eq (sameBooks_draw hdraws.1).2

/-- What a round has become stays. -/
theorem reaches_roundsMove {w w' : System} (h : Reaches config crypto w)
    (h' : World.Run database (program config crypto) (fun _ _ => True) w w') :
    RoundsMove w.db w'.db :=
  (World.Sound.run lifecycle_verified (fun w e _ => admits_inOrder w e) h'
    (reachable_inOrder h)).2.2

/-- Along every run the rounds are in order, each event moves one of them on by at most one
transition or opens one, and what a round has become stays. -/
theorem reachable_lifecycle {w : System} (h : Reaches config crypto w) :
    Lifecycle w.db ∧
      (∀ e w', w.step database (program config crypto) e = some w' → RoundsStep w.db w'.db) ∧
      ∀ w', World.Run database (program config crypto) (fun _ _ => True) w w' →
        RoundsMove w.db w'.db :=
  ⟨reaches_lifecycle h, fun _ _ he => reaches_roundsStep h he, fun _ h' => reaches_roundsMove h h'⟩

end

/-- The small game: one round settled, the other still open. -/
theorem reachable_lifecycle_smallGame :
    (executed smallGame).db.rounds.map Round.status = [.SETTLED, .OPEN] ∧
      Lifecycle (executed smallGame).db ∧
      RoundsMove (executed []).db (executed smallGame).db :=
  ⟨by decide +kernel, (reachable_lifecycle (reaches_executed smallGame)).1,
    (reachable_lifecycle (reaches_executed [])).2.2 _ (reaches_executed smallGame)⟩

end Tessera
