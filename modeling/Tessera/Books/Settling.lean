import Tessera.Books.Closing

/-!
# Settling and voiding a round keep the terms

Both lock the round, then its active bets in the order of the scan, close them one by one, and
move the round on.

* `wp_lockBets` — the scan that locks the bets;
* `Remaining` — where the loop over the bets stands, with its step `Remaining.step`;
* `settleRound_verified`, `voidRound_verified`.
-/

namespace Tessera

open Relational Transactions Transactions.Program

section
variable {config : Config} {c : Call} {f f' : Standing Db LockKey Write} {s s' : Db}
variable {es : List Effect} {roundId : Uuid}

/-! ## Locking the bets -/

/-- A bet is on the round. -/
def OnRound (roundId id : Uuid) (s : Db) : Prop := ∃ b, s.bet id = some b ∧ b.roundId = roundId

/-- The round, and bets on it. -/
def OfRound (roundId : Uuid) (s : Db) (k : LockKey) : Prop :=
  k = .round roundId ∨ ∃ id b, k = .bet id ∧ s.bet id = some b ∧ b.roundId = roundId

/-- A bet stays on its round. -/
theorem OnRound.later (h : Later (books config) f s f' s') {id : Uuid}
    (hid : OnRound roundId id s) : OnRound roundId id s' := by
  obtain ⟨b, hb, hround⟩ := hid
  have hgrows : Grows s s' := h.rely.grows.toGrows
  obtain ⟨b', hb', hcore⟩ := hgrows.bet hb
  exact ⟨b', hb', (congrArg Bet.roundId hcore).trans hround⟩

/-- A row of a round stays one. -/
theorem OfRound.later (h : Later (books config) f s f' s') {k : LockKey}
    (hk : OfRound roundId s k) : OfRound roundId s' k := by
  rcases hk with rfl | ⟨id, b, rfl, hb, hround⟩
  · exact .inl rfl
  · obtain ⟨b', hb', hround'⟩ := OnRound.later h ⟨b, hb, hround⟩
    exact .inr ⟨id, b', rfl, hb', hround'⟩

/-- The bet as it is now, if it is still active on the round. -/
def activeOn (roundId : Uuid) (row : Bet) (s : Db) : Option Bet :=
  (s.bet row.id).filter fun b => b.roundId == roundId && b.status == .ACTIVE

/-- A bet is still active on the round when it is found so under its lock. -/
theorem activeOn_eq_some {row b : Bet} : activeOn roundId row s = some b ↔
    s.bet row.id = some b ∧ b.roundId = roundId ∧ b.status = .ACTIVE := by
  simp [activeOn, Option.filter_eq_some_iff]

/-- It stays so under its lock. -/
theorem activeOn_later (h : Later (books config) f s f' s') {row : Bet}
    (hlock : (.bet row.id, .exclusive) ∈ f.held) :
    activeOn roundId row s' = activeOn roundId row s := by
  have hsame : s'.bet row.id = s.bet row.id := bet_later h hlock []
  unfold activeOn
  rw [hsame]

/-- What is held and known once the rows of a scan are locked. -/
structure Scanned (config : Config) (roundId : Uuid) (rows found : List Bet)
    (f : Standing Db LockKey Write) (s : Db) : Prop extends Working config [] [] f s where
  locked : ∀ row ∈ rows, (.bet row.id, .exclusive) ∈ f.held
  found_eq : found = rows.filterMap fun row => activeOn roundId row s

/-- The bets of the round are locked in the order of the scan. -/
theorem wp_lockBets (hcloses : c.Closes roundId) {rows : List Bet} :
    ∀ {f : Standing Db LockKey Write} {s : Db} {Q : Post Db LockKey Write AppError (List Bet)},
    Working config [] [] f s → (.round roundId, .exclusive) ∈ f.held →
    RowsWithin f (OfRound roundId s) → (∀ row ∈ rows, OnRound roundId row.id s) →
    (∀ found f' s', Later (books config) f s f' s' →
      Scanned config roundId rows found f' s' → Q (.ok found) f' s') →
    wp database (books config) (terms config c)
      (lockEach (fun b => LockKey.bet b.id) (activeOn roundId) rows : Action (List Bet)) f s
      Q := by
  have hR := books_regular config
  induction rows with
  | nil => exact fun W _ _ _ hok => hok [] _ _ (.refl hR W.inv) ⟨W, List.forall_mem_nil _, rfl⟩
  | cons row rows ih =>
    intro f s Q W hround hwithin hrows hok
    obtain ⟨hrow, hrows⟩ := List.forall_mem_cons.1 hrows
    refine wp_bind.2 (wp_acquire (fun s₁ h₁ => fun _ _ => .inr ?_) fun s₁ h₁ _ => onValue_ok ?_)
    · have hl : Later (books config) f s f s₁ := ⟨h₁, List.Subset.refl _⟩
      obtain ⟨b, hb, hb'⟩ := hrow.later hl
      exact .bet hcloses hb hb' hround (hwithin.mono fun k hk => hk.later hl)
    have hl : Later (books config) f s (f.locked (.bet row.id) .exclusive (f.view database s₁)) s₁ :=
      ⟨h₁, List.subset_cons_self _ _⟩
    have W₁ := (W.wait h₁).locked (.inr ⟨row.id, rfl⟩) (f.view database s₁)
    refine wp_bind.2 (ih W₁ (hl.kept hround) ?_ (fun r hr => (hrows r hr).later hl)
      fun found f₂ s₂ h₂ S => onValue_ok (wp_pure ?_))
    · intro k hk hkrow
      rcases List.mem_cons.1 hk with rfl | hk
      · obtain ⟨b, hb, hb'⟩ := hrow.later hl
        exact .inr ⟨row.id, b, rfl, hb, hb'⟩
      · exact (hwithin k hk hkrow).later hl
    · refine hok _ f₂ s₂ (hl.trans hR h₂) ⟨S.toWorking, ?_, ?_⟩
      · exact List.forall_mem_cons.2 ⟨h₂.kept List.mem_cons_self, S.locked⟩
      · have hview : activeOn roundId row (f.view database s₁) = activeOn roundId row s₂ := by
          rw [W.view]
          exact (activeOn_later h₂ List.mem_cons_self).symm
        rw [hview, S.found_eq, List.filterMap_cons]
        cases activeOn roundId row s₂ <;> rfl

/-! ## The loop over the bets -/

/-- The writes that close a bet change its row, and no other. -/
theorem bets_closed (s : Db) (es : List Effect) (b : Bet) (u : BetUpdate) (p : Posted)
    {told : List Effect} (htold : ∀ e ∈ told, ∃ n, e = Effect.aside (.notify n)) :
    (database.applyAll s (rowsOf (es ++ .close b.id u p :: told))).bets =
      modify Bet.id (database.applyAll s (rowsOf es)).bets b.id u.row := by
  have hasides : ∀ v : Db, (database.applyAll v (rowsOf told)).bets = v.bets := by
    induction told with
    | nil => exact fun _ => rfl
    | cons e told ih =>
      intro v
      obtain ⟨n, rfl⟩ := htold e List.mem_cons_self
      rw [applyAll_rowsOf_cons]
      exact ih (fun e he => htold e (List.mem_cons_of_mem _ he)) _
  have hafter : Effect.after (.close b.id u p) (database.applyAll s (rowsOf es)) =
      ((database.applyAll s (rowsOf es)).apply (.updateBet b.id u)).posted p := applyAll_posted _ p
  rw [rowsOf_append, Database.applyAll_append, applyAll_rowsOf_cons, hasides, hafter]
  rfl

/-- Where the loop over the bets of a round stands. -/
structure Remaining (config : Config) (roundId : Uuid) (es : List Effect) (rest : List Bet)
    (f : Standing Db LockKey Write) (s : Db) : Prop extends Working config es [] f s where
  round : (.round roundId, .exclusive) ∈ f.held
  closable : ∀ b ∈ rest, Closable es b f s ∧ b.roundId = roundId
  nodup : (rest.map Bet.id).Nodup
  others : Always (books config) f.held s fun s' =>
    ∀ b ∈ (database.applyAll s' (rowsOf es)).bets, b.roundId = roundId → b.status = .ACTIVE →
      b ∈ rest

/-- One bet less. -/
theorem Remaining.step {b : Bet} {rest : List Bet}
    (h : Remaining config roundId es (b :: rest) f s) (hl : Later (books config) f s f' s')
    (C : BetClosed config es b f' s') : ∃ es', Remaining config roundId es' rest f' s' := by
  obtain ⟨u, p, told, hne, htold, W⟩ := C
  have hnodup := h.nodup
  rw [List.map_cons, List.nodup_cons] at hnodup
  refine ⟨_, W, hl.kept h.round, fun b' hb' => ?_, hnodup.2, fun s'' h'' b' hb' hround hactive => ?_⟩
  · obtain ⟨hclosable, hround⟩ := h.closable b' (List.mem_cons_of_mem _ hb')
    have hclosable' := hclosable.wait hl
    have hid : b'.id ≠ b.id := fun heq => hnodup.1 (heq ▸ List.mem_map_of_mem hb')
    refine ⟨{ hclosable' with found := ?_ }, hround⟩
    unfold Db.bet
    rw [bets_closed s' es b u p htold, lookup_modify_ne (BetUpdate.row_id u) hid]
    exact hclosable'.found
  · rw [bets_closed s'' es b u p htold] at hb'
    obtain ⟨b₀, hb₀, ⟨-, rfl⟩ | ⟨hid, rfl⟩⟩ := mem_modify hb'
    · exact absurd hactive hne
    · have hs'' : Rely (books config) f.held s s'' := (hl.wait (books_regular config) h'').rely
      rcases List.mem_cons.1 (h.others s'' hs'' b' hb₀ hround hactive) with rfl | hmem
      · exact absurd rfl hid
      · exact hmem

/-- Every active bet of the round is among those that the scan has seen. -/
theorem active_seen (hs : Keyed s) (h : Later (books config) f s f' s')
    (hround : (.round roundId, .exclusive) ∈ f.held) {b : Bet} (hb : b ∈ s'.bets)
    (hid : b.roundId = roundId) (hactive : b.status = .ACTIVE) :
    ∃ b₀ ∈ s.bets.filter fun b => b.roundId == roundId && b.status == .ACTIVE, b₀.id = b.id := by
  have hsame : Same (.round roundId) .exclusive s s' := h.rely.same _ hround
  have hon : b.id ∈ s.betsOn roundId := by
    rw [← hsame.2 rfl]
    exact List.mem_map_of_mem (List.mem_filter.2 ⟨hb, by simpa using hid⟩)
  obtain ⟨b₀, hb₀, hb₀id⟩ := List.mem_map.1 hon
  obtain ⟨hmem, hround₀⟩ := List.mem_filter.1 hb₀
  refine ⟨b₀, List.mem_filter.2 ⟨hmem, ?_⟩, hb₀id⟩
  by_cases hstatus : b₀.status = .ACTIVE
  · simpa [hstatus] using hround₀
  · -- a bet that is closed stays closed
    have hkeyed : Keyed s' := h.rely.inv.keyed
    have hfound : s'.bet b.id = some b := lookup_of_mem hkeyed.bets hb
    have hfound₀ : s.bet b₀.id = some b₀ := lookup_of_mem hs.bets hmem
    have hkept := h.rely.grows.settled hfound₀ hstatus
    rw [hb₀id, hfound] at hkept
    exact absurd (Option.some.inj hkept ▸ hactive) hstatus

/-- The active bets of a round that is locked, locked themselves. -/
theorem wp_lockActiveBets (hcloses : c.Closes roundId) (W : Working config [] [] f s)
    (hround : (.round roundId, .exclusive) ∈ f.held) (hwithin : RowsWithin f (OfRound roundId s))
    {Q : Post Db LockKey Write AppError (List Bet)}
    (hok : ∀ found f' s', Later (books config) f s f' s' →
      Remaining config roundId [] found f' s' → Q (.ok found) f' s') :
    wp database (books config) (terms config c) (lockActiveBets roundId) f s Q := by
  have hR := books_regular config
  refine wp_bind.2 (wp_read fun x => onValue_ok ?_)
  refine wp_bind.2 (wp_select fun s₁ h₁ => onValue_ok ?_)
  have hview : f.view database s₁ = s₁ := W.view s₁
  rw [hview]
  have hl₁ : Later (books config) f s (f.saw s₁) s₁ := ⟨h₁, List.Subset.refl _⟩
  have W₁ : Working config [] [] (f.saw s₁) s₁ := (W.wait h₁).saw s₁
  have hperm := x.order.perm (s₁.bets.filter fun b => b.roundId == roundId && b.status == .ACTIVE)
  have hkeyed : Keyed s₁ := W₁.inv.keyed
  refine wp_lockBets hcloses W₁ hround (hwithin.mono fun k hk => hk.later hl₁)
    (fun row hrow => ?_) fun found f₂ s₂ h₂ S => ?_
  · obtain ⟨hmem, hcond⟩ := List.mem_filter.1 (hperm.mem_iff.1 hrow)
    exact ⟨row, lookup_of_mem hkeyed.bets hmem, by simpa using (Bool.and_eq_true_iff.1 hcond).1⟩
  · have hactive : ∀ {f₃ s₃}, Later (books config) f₂ s₂ f₃ s₃ → ∀ b, b ∈ found ↔
        ∃ row ∈ x.order.permute (s₁.bets.filter fun b =>
          b.roundId == roundId && b.status == .ACTIVE), activeOn roundId row s₃ = some b := by
      intro f₃ s₃ h₃ b
      rw [S.found_eq, List.mem_filterMap]
      refine exists_congr fun row => and_congr_right fun hrow => ?_
      rw [activeOn_later h₃ (S.locked row hrow)]
    have hfind : ∀ {row b : Bet}, activeOn roundId row s₂ = some b → b.id = row.id :=
      fun h => Db.bet_id (activeOn_eq_some.1 h).1
    refine hok found f₂ s₂ (hl₁.trans hR h₂) ⟨S.toWorking, h₂.kept hround,
      fun b hb => ?_, ?_, fun s₃ h₃ b hb hid hstatus => ?_⟩
    · obtain ⟨row, hrow, hrow'⟩ := (hactive (.refl hR S.inv) b).1 hb
      obtain ⟨hfound, hid, hstatus⟩ := activeOn_eq_some.1 hrow'
      rw [← hfind hrow'] at hfound
      have hlock := S.locked row hrow
      rw [← hfind hrow'] at hlock
      exact ⟨⟨hlock, hfound, hstatus, hfound⟩, hid⟩
    · rw [S.found_eq]
      refine List.Nodup.sublist (map_filterMap_sublist hfind) ?_
      refine (hperm.map Bet.id).nodup_iff.2 ?_
      exact List.Nodup.sublist (List.filter_sublist.map _) hkeyed.bets
    · obtain ⟨b₀, hb₀, hb₀id⟩ := active_seen hkeyed
        (h₂.trans hR ⟨h₃, List.Subset.refl _⟩) hround hb hid hstatus
      refine (hactive ⟨h₃, List.Subset.refl _⟩ b).2 ⟨b₀, hperm.mem_iff.2 hb₀, ?_⟩
      refine activeOn_eq_some.2 ⟨?_, hid, hstatus⟩
      rw [hb₀id]
      exact lookup_of_mem h₃.inv.keyed.bets hb

/-- The bets of a round are closed one by one, by a procedure that closes each. -/
theorem wp_closeEach {body : Bet → Action Unit} {I : Standing Db LockKey Write → Db → Prop}
    (hI : ∀ {f s f' s'}, Later (books config) f s f' s' → I f s → I f' s')
    (hbody : ∀ {es b rest f s} {Q : Post Db LockKey Write AppError Unit},
      Remaining config roundId es (b :: rest) f s → I f s →
      (∀ f' s', Later (books config) f s f' s' → BetClosed config es b f' s' → Q (.ok ()) f' s') →
      (∀ e f' s', Benign e → Q (.error e) f' s') →
      wp database (books config) (terms config c) (body b) f s Q)
    {bets : List Bet} (h : Remaining config roundId es bets f s) (hs : I f s)
    {Q : Post Db LockKey Write AppError Unit}
    (hok : ∀ es' f' s', Remaining config roundId es' [] f' s' → Q (.ok ()) f' s')
    (herror : ∀ e f' s', Benign e → Q (.error e) f' s') :
    wp database (books config) (terms config c) (forEach body bets) f s Q := by
  refine wp_forEach (fun done f s => ∃ es rest, bets = done ++ rest ∧
    Remaining config roundId es rest f s ∧ I f s) [] ⟨es, bets, rfl, h, hs⟩ ?_ ?_
  · rintro done b after hsplit f s ⟨es, rest, hrest, hremaining, hs⟩
    obtain rfl : rest = b :: after := List.append_cancel_left (hrest.symm.trans hsplit)
    refine hbody hremaining hs (fun f' s' hl C => ?_) herror
    obtain ⟨es', hremaining'⟩ := hremaining.step hl C
    exact ⟨es', after, by simpa using hrest, hremaining', hI hl hs⟩
  · rintro f s ⟨es, rest, hrest, hremaining, -⟩
    obtain rfl : rest = [] := by simpa using hrest
    exact hok es f s hremaining

/-! ## The round itself -/

/-- `UPDATE rounds … WHERE status IN (…)`. -/
theorem Working.updateRound (W : Working config es [] f s) {from_ : RoundStatus → Bool}
    {u : RoundUpdate}
    (hguard : ∀ f' s', f'.held = f.held → c.guard f' (.round roundId, .exclusive) s')
    (hstatus : u.status ≠ .OPEN)
    (hends : u.status.isOver = true → Always (books config) f.held s fun s' =>
      (database.applyAll s' (rowsOf es)).NoneActive roundId)
    {Q : Post Db LockKey Write AppError ℕ}
    (hok : ∀ n es' f' s', Working config es' [] f' s' → Q (.ok n) f' s')
    (herror : ∀ e f' s', Benign e → Q (.error e) f' s') :
    wp database (books config) (terms config c) (updateRoundWhere roundId from_ u) f s Q := by
  have hR := books_regular config
  have hid : ∀ {v : Db} {row : Round},
      ((v.round roundId).filter fun r => from_ r.status) = some row → row.id = roundId :=
    fun h => lookup_key (Option.filter_eq_some_iff.1 h).1
  refine wp_bind.2 (wp_selectForLock (fun s₁ h₁ _ => ?_) (fun s₁ row h₁ hrow s₂ h₂ => ?_)
    fun s₁ row h₁ hrow s₂ h₂ _ => ?_)
  · exact onValue_ok (hok 0 es _ s₁ ((W.wait h₁).saw _))
  · rw [hid hrow]
    exact hguard _ s₂ rfl
  · rw [hid hrow]
    have h₁₂ := h₁.trans hR h₂
    have W₂ := (((W.wait h₁).saw (f.view database s₁)).wait h₂).locked
      (.inl ⟨roundId, rfl⟩) (f.view database s₂)
    refine onValue_ok ?_
    split
    · exact hok 0 es _ s₂ W₂
    · refine wp_bind.2 (wp_assertChecks (fun _ => onValue_ok ?_) fun _ _ =>
        herror _ _ _ ⟨by simp, by simp⟩)
      refine wp_bind.2 (wp_put ?_ (fun s' _ ht => ht.apply_other (by simp) (by simp)) fun s₃ h₃ => ?_)
      · exact List.cons_subset.2 ⟨List.mem_cons_self, List.nil_subset _⟩
      · refine hok 1 (es ++ [.advance roundId u]) _ s₃ ⟨h₃.inv, ?_, fun s₄ h₄ => ?_, W₂.order⟩
        · change f.pending ++ _ = _
          rw [W.pending, rowsOf_snoc]
          simp [Effect.rows]
        · have h₃₄ := h₃.trans hR h₄
          refine (W₂.done s₄ h₃₄).snoc ⟨hstatus, fun hover => hends hover s₄ ?_⟩
          exact h₁₂.trans hR (h₃₄.mono (List.subset_cons_self _ _))

/-! ## Whole transactions -/

/-- Nothing is asked of the effects of a call other than `placeBet`. -/
theorem Call.does_other (hc : ∀ input, c ≠ .placeBet input) (es : List Effect) : c.Does es := by
  cases c with
  | placeBet input => exact absurd rfl (hc input)
  | _ => trivial

/-- How the body of a transaction that closes bets ends. -/
def bodyEnds (config : Config) {α : Type} : Post Db LockKey Write AppError α
  | .ok _, f, s => ∃ es, Working config es [] f s
  | .error e, _, _ => Benign e

/-- A transaction that closes bets commits the effects of its body. -/
theorem wp_closing (hc : ∀ input, c ≠ .placeBet input) {α : Type} {body : Action α}
    (h : wp database (books config) (terms config c) body f s (bodyEnds config)) :
    wp database (books config) (terms config c) (transaction body) f s
      fun r _ _ => NotTrigger r := by
  refine wp_transaction (wp_mono (fun r f s hr => ?_) h)
  cases r with
  | ok a =>
    obtain ⟨es, W⟩ := hr
    refine fun s' hs' _ => ⟨fun _ => ⟨⟨es, ?_, W.done s' hs', Call.does_other hc es⟩, by simp [NotTrigger]⟩,
      fun e he a kind n heq => ?_⟩
    · rw [W.pending, List.append_nil]
    · cases heq
      exact (deferred_benign he).1 a kind n rfl
  | error e =>
    have hbenign : Benign e := hr
    intro s' _ a kind n heq
    cases heq
    exact hbenign.1 a kind n rfl

/-- A session that is not in a transaction. -/
structure Idle (f : Standing Db LockKey Write) : Prop where
  held : f.held = []
  pending : f.pending = []

/-- A read leaves a session without locks and writes. -/
theorem Idle.saw (hf : Idle f) (v : Db) : Idle (f.saw v) := ⟨hf.held, hf.pending⟩

/-- Nothing is asked of the rows of such a session. -/
theorem Idle.rows {P : LockKey × LockMode → Prop} (hf : Idle f) :
    ∀ h ∈ f.held, h.1.isRow = true → P h := by
  intro h hh
  rw [hf.held] at hh
  exact absurd hh List.not_mem_nil

/-- A transaction that closes bets starts without effects. -/
theorem Working.start (hs : Consistent config s) (hf : Idle f) : Working config [] [] f s :=
  ⟨hs, hf.pending, fun _ _ => trivial, .inr hf.rows⟩

/-- A round that is locked and was found. -/
structure RoundHeld (round : Round) (f : Standing Db LockKey Write) (s : Db) : Prop where
  held : (.round round.id, .exclusive) ∈ f.held
  found : s.round round.id = some round

/-- A round that is locked stays as it is. -/
theorem RoundHeld.later {round : Round} (hl : Later (books config) f s f' s')
    (h : RoundHeld round f s) : RoundHeld round f' s' := by
  have hsame : Same (.round round.id) .exclusive s s' := hl.rely.same _ h.held
  exact ⟨hl.kept h.held, hsame.1.trans h.found⟩

/-- The first statement of `settleRound` and `voidRound`: the round is locked, or not there. -/
theorem wp_lockRoundRow (hs : Consistent config s) (hf : Idle f)
    {Q : Post Db LockKey Write AppError (Option Round)}
    (hnone : ∀ f' s', Working config [] [] f' s' → Q (.ok none) f' s')
    (hsome : ∀ round f' s', round.id = roundId → Working config [] [] f' s' →
      RoundHeld round f' s' → RowsWithin f' (OfRound roundId s') → Q (.ok (some round)) f' s') :
    wp database (books config) (terms config c)
      (selectForLock .exclusive (fun r : Round => LockKey.round r.id) (fun s => s.round roundId) :
        Action (Option Round)) f s Q := by
  have W := Working.start hs hf
  refine wp_selectForLock (fun s₁ h₁ _ => hnone _ s₁ ((W.wait h₁).saw _))
    (fun s₁ row h₁ hrow s₂ h₂ => fun _ _ => .inr (.round (hf.saw _).rows))
    fun s₁ row h₁ hrow s₂ h₂ _ => ?_
  have hview : ∀ v : Db, f.view database v = v := W.view
  rw [hview] at hrow
  rw [hview, hview]
  have hid : row.id = roundId := lookup_key hrow
  have hgrows : Grows s₁ s₂ := h₂.grows.toGrows
  obtain ⟨row', hrow', -⟩ := hgrows.round (hid ▸ hrow : s₁.round row.id = some row)
  have hid' : row'.id = row.id := lookup_key hrow'
  have W₂ := (((W.wait h₁).saw s₁).wait h₂).locked (.inl ⟨row.id, rfl⟩) s₂
  rw [← hid, hrow']
  refine hsome row' _ s₂ (hid'.trans hid) W₂ ⟨?_, ?_⟩ fun k hk _ => ?_
  · rw [hid']
    exact List.mem_cons_self
  · rw [hid']
    exact hrow'
  · rcases List.mem_cons.1 hk with rfl | hk
    · exact .inl (congrArg LockKey.round hid)
    · rw [(hf.saw s₁).held] at hk
      exact absurd hk List.not_mem_nil

/-- The end of `settleRound` and `voidRound`: the round moves on, and everyone is told. -/
theorem wp_finishRound (h : Remaining config roundId es [] f s) {from_ : RoundStatus → Bool}
    {u : RoundUpdate} (hstatus : u.status ≠ .OPEN) :
    wp database (books config) (terms config c)
      (do
        let _ ← updateRoundWhere roundId from_ u
        publish (.roundState roundId) : Action Unit) f s (bodyEnds config) := by
  refine wp_bind.2 (h.toWorking.updateRound (fun f' s' hheld => fun _ _ => .inl ?_) hstatus
    (fun _ s' hs' => ?_) (fun n es' f₁ s₁ W₁ => onValue_ok ?_) fun e _ _ he => he)
  · exact hheld ▸ h.round
  · exact fun b hb hround hactive =>
      absurd (h.others s' hs' b hb hround hactive) List.not_mem_nil
  · exact W₁.publish fun f₂ s₂ _ W₂ => ⟨_, W₂⟩

/-- The owner of a bet that wins is paid by `settleRound`. -/
theorem settleRound_pays {round : Round} {b : Bet} {rest : List Bet} {oddsBp : ℤ}
    (h : Remaining config round.id es (b :: rest) f s) (hround : RoundHeld round f s)
    (hgame : round.game = .ROULETTE)
    (hwins : b.winsAt (round.winningPocket.getD 0) = .ok (some oddsBp)) :
    Always (books config) f.held s fun s' => (Call.settleRound round.id).pays s' b.userId := by
  obtain ⟨hclosable, hid⟩ := h.closable b List.mem_cons_self
  intro s' hs'
  have hl : Later (books config) f s f s' := ⟨hs', List.Subset.refl _⟩
  have hplaced := (hclosable.wait hl).placed
  exact ⟨b, Db.bet_mem hplaced, hid, rfl, hclosable.active, round, oddsBp,
    (hround.later hl).found, hgame, hwins⟩

/-- An error of the selection is not about funds. -/
theorem assertValidSelection_benign {selection : RouletteSelection} {e : AppError}
    (h : assertValidSelection selection = .error e) : Benign e := by
  unfold assertValidSelection at h
  dsimp only at h
  repeat' split at h
  all_goals
    cases h
  all_goals
    exact ⟨by simp, by simp⟩

/-- Nor is an error of the stored selection. -/
theorem winsAt_benign {b : Bet} {pocket : ℤ} {e : AppError} (h : b.winsAt pocket = .error e) :
    Benign e := by
  have hwins : selectionWins b.selection pocket = .error e := by
    unfold Bet.winsAt at h
    repeat' split at h
    all_goals
      cases h
    assumption
  unfold selectionWins at hwins
  cases hvalid : assertValidSelection b.selection with
  | error e' =>
    rw [hvalid] at hwins
    cases hwins
    exact assertValidSelection_benign hvalid
  | ok _ =>
    rw [hvalid] at hwins
    dsimp only at hwins
    split at hwins
    · cases hwins
      exact ⟨by simp, by simp⟩
    · cases hwins

/-- `settleRound` keeps the discipline of the books and its own terms. -/
theorem settleRound_verified (hs : Consistent config s) (hf : Idle f) :
    wp database (books config) (terms config (.settleRound roundId)) (settleRound roundId) f s
      fun r _ _ => NotTrigger r := by
  have hc : ∀ input, Call.settleRound roundId ≠ .placeBet input := by simp
  refine wp_closing hc (wp_bind.2 (wp_lockRoundRow hs hf (fun f₁ s₁ W₁ => ⟨[], W₁⟩)
    fun round f₁ s₁ hid W₁ hround hwithin => onValue_ok ?_))
  subst hid
  simp only
  split
  · exact ⟨[], W₁⟩
  have hcloses : (Call.settleRound round.id).Closes round.id := rfl
  refine wp_bind.2 (wp_lockActiveBets hcloses W₁ hround.held hwithin fun bets f₂ s₂ h₂ R₂ =>
    onValue_ok ?_)
  refine wp_bind.2 (wp_closeEach (I := RoundHeld round) RoundHeld.later ?_ R₂ (hround.later h₂)
    (fun es f₃ s₃ R₃ => onValue_ok ?_) fun e _ _ he => he)
  · intro es b rest f s Q h hround hok herror
    have hclosable := (h.closable b List.mem_cons_self).1
    unfold settleBet
    cases hgame : round.game with
    | CRASH => exact wp_settleLostBet hc h.toWorking hclosable hok herror
    | ROULETTE =>
      refine wp_bind.2 (wp_check ?_)
      cases hwins : b.winsAt (round.winningPocket.getD 0) with
      | error e => exact herror e f s (winsAt_benign hwins)
      | ok won =>
        cases won with
        | none => exact wp_settleLostBet hc h.toWorking hclosable hok herror
        | some oddsBp =>
          exact wp_settleWonBet hc h.toWorking hclosable (settleRound_pays h hround hgame hwins)
            hok herror
  · refine wp_bind.2 (wp_read fun x => onValue_ok ?_)
    exact wp_finishRound R₃ (by simp)

/-- `voidRound` keeps the discipline of the books and its own terms. -/
theorem voidRound_verified (hs : Consistent config s) (hf : Idle f) :
    wp database (books config) (terms config (.voidRound roundId)) (voidRound roundId) f s
      fun r _ _ => NotTrigger r := by
  have hc : ∀ input, Call.voidRound roundId ≠ .placeBet input := by simp
  refine wp_closing hc (wp_bind.2 (wp_lockRoundRow hs hf (fun f₁ s₁ W₁ => ⟨[], W₁⟩)
    fun round f₁ s₁ hid W₁ hround hwithin => onValue_ok ?_))
  subst hid
  simp only
  split
  · exact ⟨[], W₁⟩
  have hcloses : (Call.voidRound round.id).Closes round.id := rfl
  refine wp_bind.2 (wp_lockActiveBets hcloses W₁ hround.held hwithin fun bets f₂ s₂ h₂ R₂ =>
    onValue_ok ?_)
  refine wp_bind.2 (wp_closeEach (I := fun _ _ => True) (fun _ h => h) ?_ R₂ trivial
    (fun es f₃ s₃ R₃ => onValue_ok ?_) fun e _ _ he => he)
  · intro es b rest f s Q h _ hok herror
    obtain ⟨hclosable, hon⟩ := h.closable b List.mem_cons_self
    refine wp_refundBet hc h.toWorking hclosable (fun s' hs' => ?_) hok herror
    have hplaced := (hclosable.wait ⟨hs', List.Subset.refl _⟩).placed
    exact ⟨b, Db.bet_mem hplaced, hon, rfl, hclosable.active⟩
  · refine wp_bind.2 (wp_read fun x => onValue_ok ?_)
    exact wp_finishRound R₃ (by simp)

/-! ## Cashing out -/

/-- The part of `cashOut` that follows its checks. -/
theorem wp_payCashOut {input : CashOutInput} {b : Bet} {game : GameKind} {now : Time}
    {multiplierBp : ℤ} (W : Working config [] [] f s) (hb : Closable [] b f s)
    (huser : b.userId = input.userId) :
    wp database (books config) (terms config (.cashOut input))
      (payCashOut input b game now multiplierBp) f s (bodyEnds config) := by
  have hR := books_regular config
  have hc : ∀ input', Call.cashOut input ≠ .placeBet input' := by simp
  have herror : ∀ e (f' : Standing Db LockKey Write) (s' : Db), Benign e →
      bodyEnds config (α := BetView) (.error e) f' s' := fun _ _ _ he => he
  obtain ⟨w, hw⟩ := W.wallet hb.placed
  have hpays : ∀ s' : Db, (Call.cashOut input).pays s' b.userId := fun _ => huser.symm
  refine wp_bind.2 (wp_check ?_)
  cases hm : basisPointsFromRaw multiplierBp with
  | error e => exact basisPointsFromRaw_benign hm
  | ok multiplier =>
  refine onValue_ok (wp_bind.2 (wp_check ?_))
  cases hp : b.stakeMinor.applyMultiplier multiplier with
  | error e => exact applyMultiplier_benign hp
  | ok payout =>
  refine onValue_ok (wp_bind.2 (wp_check ?_))
  cases hprofit : Money.sub payout b.stakeMinor with
  | error e => exact Money.sub_benign hprofit
  | ok profit =>
  refine onValue_ok (wp_bind.2 (wp_updateActiveBet W hb.locked hb.found hb.active
    (fun f₁ s₁ h₁ H hchecks => onValue_ok ?_) herror))
  rw [← huser]
  refine wp_bind.2 (H.getWallet (later_wallet h₁ hw) fun f₂ s₂ h₂ H₂ => onValue_ok ?_)
  have h₁₂ := h₁.trans hR h₂
  refine wp_bind.2 (wp_winPost hc H₂ (later_wallet h₁₂ hw) (fun s' _ => hpays s') rfl rfl rfl
    hchecks hm hp hprofit (fun posted f₃ s₃ _ C₃ => onValue_ok ?_) herror)
  refine wp_bind.2 (C₃.select fun displayName f₄ s₄ _ C₄ => onValue_ok ?_)
  refine wp_bind.2 (C₄.getBalance (fun money f₅ s₅ _ C₅ => onValue_ok ?_) herror)
  refine wp_bind.2 (C₅.publish fun f₆ s₆ _ C₆ => onValue_ok ?_)
  refine wp_bind.2 (C₆.publish fun f₇ s₇ _ C₇ => onValue_ok ?_)
  refine wp_bind.2 (C₇.publish fun f₈ s₈ _ C₈ => onValue_ok ?_)
  obtain ⟨u, p, told, -, -, W₈⟩ := C₈
  exact ⟨_, W₈⟩

/-- The bet is locked, or it is not there. -/
theorem wp_lockBetOfUser {input : CashOutInput} (hs : Consistent config s)
    {Q : Post Db LockKey Write AppError (Option Bet)}
    (hnone : ∀ f' s', Q (.ok none) f' s')
    (hsome : ∀ b f' s', Working config [] [] f' s' → (.bet b.id, .exclusive) ∈ f'.held →
      s'.bet b.id = some b → b.userId = input.userId → Q (.ok (some b)) f' s') :
    wp database (books config) (terms config (.cashOut input)) (lockBetOfUser input) {} s Q := by
  have W : Working config [] [] {} s := Working.start hs ⟨rfl, rfl⟩
  have hfind : ∀ {v : Db} {row : Bet},
      ((v.bet input.betId).filter fun b => b.userId == input.userId) = some row →
      v.bet row.id = some row ∧ row.id = input.betId ∧ row.userId = input.userId := by
    intro v row h
    obtain ⟨hrow, huser⟩ := Option.filter_eq_some_iff.1 h
    have hid : row.id = input.betId := Db.bet_id hrow
    exact ⟨hid ▸ hrow, hid, by simpa using huser⟩
  refine wp_selectForLock (fun s₁ _ _ => hnone _ s₁) (fun s₁ row h₁ hrow s₂ h₂ => ?_)
    fun s₁ row h₁ hrow s₂ h₂ _ => ?_
  · have hgrows : Grows s₁ s₂ := h₂.grows.toGrows
    obtain ⟨row', hrow', -⟩ := hgrows.bet (hfind hrow).1
    exact fun _ _ => .inr (.cashOut (Option.isSome_iff_exists.2 ⟨row', hrow'⟩) fun _ h => absurd h List.not_mem_nil)
  · have hid : row.id = input.betId := (hfind hrow).2.1
    have W₂ := (((W.wait h₁).saw s₁).wait h₂).locked (.inr ⟨row.id, rfl⟩) s₂
    cases hagain : (s₂.bet input.betId).filter fun b => b.userId == input.userId with
    | none =>
      change Q (.ok ((s₂.bet input.betId).filter _)) _ _
      rw [hagain]
      exact hnone _ _
    | some b =>
      obtain ⟨hbet₂, hid₂, huser₂⟩ := hfind hagain
      change Q (.ok ((s₂.bet input.betId).filter _)) _ _
      rw [hagain]
      refine hsome b _ s₂ W₂ ?_ hbet₂ huser₂
      rw [hid₂, ← hid]
      exact List.mem_cons_self

/-- Cashing out closes one bet, or fails for a reason that is not about funds. -/
theorem wp_cashOutActive {input : CashOutInput} {b : Bet} (W : Working config [] [] f s)
    (hb : Closable [] b f s) (huser : b.userId = input.userId) :
    wp database (books config) (terms config (.cashOut input)) (cashOutActive input b) f s
      (bodyEnds config) := by
  refine wp_bind.2 (W.select fun f₁ s₁ h₁ W₁ => onValue_ok ?_)
  cases (f.view database s₁).round b.roundId with
  | none => exact ⟨by simp, by simp⟩
  | some round =>
    dsimp only
    split
    · split
      · refine wp_bind.2 (wp_read fun x => onValue_ok ?_)
        split
        · exact ⟨by simp, by simp⟩
        · exact wp_payCashOut W₁ (hb.wait h₁) huser
      · exact ⟨by simp, by simp⟩
    · exact ⟨by simp, by simp⟩

/-- `cashOut` keeps the discipline of the books and its own terms. -/
theorem cashOut_verified {input : CashOutInput} (hs : Consistent config s) :
    wp database (books config) (terms config (.cashOut input)) (cashOut input) {} s
      fun r _ _ => NotTrigger r := by
  have hc : ∀ input', Call.cashOut input ≠ .placeBet input' := by simp
  refine wp_closing hc (wp_bind.2 (wp_lockBetOfUser hs (fun _ _ => ⟨by simp, by simp⟩)
    fun b f₁ s₁ W₁ hlock hfound huser => onValue_ok ?_))
  dsimp only
  cases hstatus : b.status with
  | WON => exact ⟨[], W₁⟩
  | LOST | VOIDED => exact ⟨by simp, by simp⟩
  | ACTIVE => exact wp_cashOutActive W₁ ⟨hlock, hfound, hstatus, hfound⟩ huser

end

end Tessera
