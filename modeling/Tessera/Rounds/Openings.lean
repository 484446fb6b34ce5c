import Tessera.Rounds.Positions
import Tessera.Rounds.Safety

/-!
# Every opening draws the next position

Any number of processes open rounds, each on a nonce that it predicted some time ago.  Whatever a
transaction commits to `fairness_chains` and `rounds` is still the next step of the book: a stale
prediction meets one of the unique indexes.

* `positions` — the discipline: the lifecycles, and the positions on top of them;
* `Peeked` — what is left of a prediction;
* `createChain_opening`, …, `openRoundIfDue_opening` — what each step of an opening commits;
* `Config.withLength` — the chain length may change whenever a process restarts;
* `reachable_positions` — the positions along every run.
-/

namespace Tessera

open Relational Transactions Transactions.Program Allotment

/-- The lifecycles and the positions. -/
def positions (config : Config) (crypto : Crypto) : Discipline Db LockKey Write :=
  (lifecycle config).upon (Positions crypto) PositionsMove

/-- The terms of every call. -/
abbrev openingTerms (crypto : Crypto) : Terms Db LockKey Write := .committing (Opening crypto)

/-- Drawing from a sequence opens nothing. -/
theorem isDraw_opens {w : Write} (hw : w.isDraw = true) : w.opens = false := by
  cases w <;> first
    | rfl
    | cases hw

/-- A layer can be put upon the positions. -/
theorem positions_base (config : Config) (crypto : Crypto) : Base (positions config crypto) :=
  (lifecycle_base config).upon PositionsMove.refl PositionsMove.trans fun hs hw =>
    hs.apply_idle (isDraw_opens hw)

section
variable {config : Config} {crypto : Crypto} {f f' : Standing Db LockKey Write} {s s' s₀ : Db}
variable {α : Type} {c : FairnessChain} {game : GameKind}

/-- The positions with these terms: nothing is asked of row locks or draws. -/
theorem positions_overlay (config : Config) (crypto : Crypto) :
    Overlay (positions config crypto).eased (openingTerms crypto) :=
  (positions_base config crypto).overlay _

/-! ## A prediction -/

/-- The session predicted the nonce after the book of `s₀`, and has nothing open. -/
structure Peeked (config : Config) (crypto : Crypto) (s₀ : Db) (f : Standing Db LockKey Write)
    (s : Db) : Prop where
  idle : f.pending = []
  move : PositionsMove s₀ s

/-- Since the prediction the others have moved the rounds on, as all may. -/
theorem Peeked.rely (h : Peeked config crypto s₀ f s)
    (hr : Rely (positions config crypto).eased f.held s s') : PositionsMove s₀ s' :=
  h.move.trans hr.grows.2

/-- A part that writes nothing leaves a prediction as good as it was. -/
theorem Peeked.onward (h : Peeked config crypto s₀ f s)
    (ho : Onward (positions config crypto).eased (fun _ => False) f s f' s') :
    Peeked config crypto s₀ f' s' :=
  ⟨ho.still.trans h.idle, h.rely ho.rely⟩

/-- The chain in whose range a nonce lies. -/
theorem coveringChain_some {nonce : ℕ} (h : coveringChain nonce s = some c) :
    c ∈ s.chains ∧ c.block.Covers nonce := by
  obtain ⟨hfound, hlast⟩ := Option.filter_eq_some_iff.1 h
  obtain ⟨hmem, hfirst⟩ := List.mem_filter.1 (greatest_mem hfound).1
  exact ⟨hmem, of_decide_eq_true hfirst, of_decide_eq_true hlast⟩

/-- Blocks do not overlap, so the last one that begins early enough is the only candidate. -/
theorem coveringChain_none (hs : s.book.Sound) {nonce : ℕ} (h : coveringChain nonce s = none) :
    ¬s.book.Covers nonce := by
  rintro ⟨b, hb, hcovers⟩
  obtain ⟨c, hc, rfl⟩ := List.mem_map.1 hb
  have hbegun : c ∈ s.chains.filter fun c => decide (c.firstNonce ≤ nonce) :=
    List.mem_filter.2 ⟨hc, decide_eq_true hcovers.1⟩
  cases hfound : greatest FairnessChain.firstNonce
      (s.chains.filter fun c => decide (c.firstNonce ≤ nonce)) with
  | none =>
    rw [greatest_eq_none.1 hfound] at hbegun
    cases hbegun
  | some d =>
    obtain ⟨hmem, hgreatest⟩ := greatest_mem hfound
    have hd := (List.mem_filter.1 hmem).1
    have hle := hgreatest c hbegun
    have hlong : ¬nonce < d.firstNonce + d.length := by
      simpa [coveringChain, hfound, Option.filter] using h
    have hfilled := hs.filled _ (List.mem_map_of_mem hd)
    obtain ⟨hfirst, hlast⟩ := hcovers
    have hne : c ≠ d := by
      rintro rfl
      exact hlong hlast
    have hsides := one_before_other (List.pairwise_map.1 hs.apart) hc hd hne
    simp only [FairnessChain.block] at hfirst hlast hfilled hsides
    omega

/-! ## The chain -/

/-- A chain that covers the predicted nonce. -/
structure Covering (s₀ : Db) (c : FairnessChain) (s : Db) : Prop where
  row : s.chain c.id = some c
  covers : c.block.Covers (s₀.book.top + 1)

/-- The chain that covers the next position is still there later. -/
theorem Covering.grows (h : Covering s₀ c s) (hg : Grows s s') : Covering s₀ c s' :=
  ⟨hg.chain h.row, h.covers⟩

/-- `createChain`, some time after the nonce was predicted and found not covered. -/
theorem createChain_opening (h : Peeked config crypto s₀ f s)
    (hgap : ¬s.book.Covers (s₀.book.top + 1)) :
    wp database (positions config crypto).eased (openingTerms crypto)
      (createChain config crypto (s₀.book.top + 1)) f s fun r f' s' =>
        ∀ chain, r = .ok chain → Peeked config crypto s₀ f' s' ∧
          ∃ c, chain = c.active ∧ Covering s₀ c s' := by
  have herror : ∀ {e : AppError} {f' : Standing Db LockKey Write} {s' : Db},
      ∀ chain : ActiveChain, (.error e : Except AppError ActiveChain) = .ok chain →
        Peeked config crypto s₀ f' s' ∧ ∃ c, chain = c.active ∧ Covering s₀ c s' := by
    intro e f' s' chain heq
    cases heq
  refine wp_bind.2 (wp_read fun x => onValue_ok (wp_bind.2 (wp_check ?_)))
  cases deriveChainSeed crypto.sha256 x.randomBytes config.fairnessChainLength 1 with
  | error e => exact herror
  | ok firstSeed =>
    refine onValue_ok (wp_bind.2 (wp_transaction ((positions_overlay config crypto).insertChain
      h.idle (fun f₁ s₁ h₁ hpending hinserted => ?_) fun e f₁ s₁ => ?_)))
    · intro s₂ h₂ _
      have hinsert := hinserted s₂ h₂
      have hsound : Positions crypto s₂ := h₂.inv.2
      have hmove : PositionsMove s s₂ := h₁.rely.grows.2.trans h₂.grows.2
      -- a prediction that was overtaken would have met the index of first nonces
      obtain ⟨htop, hfree⟩ := h.move.leads.gap hmove.leads hsound.book hgap fun b hb heq => by
        obtain ⟨d, hd, rfl⟩ := List.mem_map.1 hb
        have hany : (s₂.chains.any fun d => d.firstNonce == s₀.book.top + 1) = true :=
          List.any_eq_true.2 ⟨d, hd, beq_iff_eq.2 heq⟩
        exact Bool.false_ne_true (hinsert.first.symm.trans hany)
      have hopening : Opening crypto s₂ f₁.pending := by
        rw [hpending]
        refine .chain hinsert.id hinsert.filled (congrArg (· + 1) htop.symm) ?_
        rwa [htop]
      refine ⟨fun _ => ⟨hopening, onValue_ok (wp_pure ?_)⟩, fun e _ => herror⟩
      intro chain heq
      cases heq
      have hafter := hsound.after hopening
      refine ⟨⟨rfl, (h.move.trans hmove).trans hafter.2⟩, _, rfl, ?_, ?_⟩
      · unfold Standing.view
        rw [hpending]
        exact lookup_append_new hinsert.id
      · exact ⟨le_rfl, Nat.lt_add_of_pos_right hinsert.filled⟩
    · exact fun _ _ => herror

/-- The chain that is found or inserted covers the position after the last one. -/
theorem chainFor_opening (h : Peeked config crypto s₀ f s) :
    wp database (positions config crypto).eased (openingTerms crypto)
      (chainFor config crypto (s₀.book.top + 1)) f s fun r f' s' =>
        ∀ chain, r = .ok chain → Peeked config crypto s₀ f' s' ∧
          ∃ c, chain = c.active ∧ Covering s₀ c s' := by
  refine wp_bind.2 (wp_selectOnward fun f₁ s₁ h₁ => onValue_ok ?_)
  have hpeeked := h.onward h₁
  have hsound : Positions crypto s₁ := h₁.rely.inv.2
  rw [view_nil hpeeked.idle]
  cases hfound : coveringChain (s₀.book.top + 1) s₁ with
  | none => exact createChain_opening hpeeked (coveringChain_none hsound.book hfound)
  | some c =>
    refine wp_pure fun chain heq => ?_
    cases heq
    obtain ⟨hmem, hcovers⟩ := coveringChain_some hfound
    exact ⟨hpeeked, c, rfl, hsound.chain_of_mem hmem, hcovers⟩

/-! ## The outcome -/

/-- The outcome was drawn from the predicted position of a chain. -/
structure DrawnFrom (crypto : Crypto) (s₀ : Db) (outcome : RoundOutcome) (c : FairnessChain)
    (s : Db) : Prop extends Covering s₀ c s where
  chainId : outcome.chainId = c.id
  next : c.firstNonce + outcome.chainIndex = s₀.book.top + 2
  seed : deriveChainSeed crypto.sha256 c.terminalSeed c.length outcome.chainIndex = .ok outcome.seed

/-- An outcome that was drawn from a chain is still drawn from it later. -/
theorem DrawnFrom.grows {outcome : RoundOutcome} (h : DrawnFrom crypto s₀ outcome c s)
    (hg : Grows s s') : DrawnFrom crypto s₀ outcome c s' :=
  { h with row := hg.chain h.row }

/-- The outcome is drawn from the chain that covers the next position. -/
theorem drawOutcome_opening (h : Peeked config crypto s₀ f s) :
    wp database (positions config crypto).eased (openingTerms crypto)
      (drawOutcome config crypto (s₀.book.top + 1)) f s fun r f' s' =>
        ∀ outcome, r = .ok outcome → Peeked config crypto s₀ f' s' ∧
          ∃ c, DrawnFrom crypto s₀ outcome c s' := by
  have hO := positions_overlay config crypto
  have herror : ∀ {e : AppError} {f' : Standing Db LockKey Write} {s' : Db},
      ∀ outcome : RoundOutcome, (.error e : Except AppError RoundOutcome) = .ok outcome →
        Peeked config crypto s₀ f' s' ∧ ∃ c, DrawnFrom crypto s₀ outcome c s' := by
    intro e f' s' outcome heq
    cases heq
  refine wp_bind.2 (wp_mono (fun r f₁ s₁ hr => ?_) (chainFor_opening h))
  cases r with
  | error e => exact herror
  | ok chain =>
    obtain ⟨hpeeked, c, rfl, hcovering⟩ := hr chain rfl
    refine onValue_ok (wp_bind.2 (wp_selectOnward fun f₂ s₂ h₂ => onValue_ok ?_))
    have hcovering₂ := hcovering.grows (hO.grows h₂.rely.grows)
    have hpeeked₂ := hpeeked.onward h₂
    have hrow : s₂.chain c.active.id = some c := hcovering₂.row
    rw [view_nil hpeeked₂.idle, hrow]
    refine wp_bind.2 (wp_check ?_)
    cases hseed : deriveChainSeed crypto.sha256 c.terminalSeed c.active.length
        (((s₀.book.top + 1 : ℕ) : ℤ) - c.active.firstNonce + 1) with
    | error e => exact herror
    | ok seed =>
      refine onValue_ok (wp_bind.2 (wp_check ?_))
      cases verifyOutcome crypto seed (s₀.book.top + 1) with
      | error e => exact herror
      | ok verified =>
        refine onValue_ok (wp_pure fun outcome heq => ?_)
        cases heq
        refine ⟨hpeeked₂, c, hcovering₂, rfl, ?_, hseed⟩
        simp only [FairnessChain.active]
        push_cast
        ring

/-! ## The round -/

/-- The row that an opening inserts draws the predicted position, and only if nobody else
has. -/
theorem insertDrawnRound_opening {outcome : RoundOutcome} {pocket : Option ℤ}
    (h : Peeked config crypto s₀ f s) (hdrawn : DrawnFrom crypto s₀ outcome c s) :
    wp database (positions config crypto).eased (openingTerms crypto)
      (insertDrawnRound config game outcome pocket) f s
      (EndsReady (positions config crypto).eased (Opening crypto)) := by
  have hO := positions_overlay config crypto
  refine wp_bind.2 (wp_read fun x => onValue_ok (wp_bind.2 (wp_draw (fun _ _ => trivial)
    fun s₁ h₁ => onValue_ok (wp_bind.2 ?_))))
  have hahead : s₁.book.top ≤ s₁.nonceSeq := (h₁.inv.2 : Positions crypto s₁).ahead
  have hmove₁ := (h.rely h₁).leads.top_le
  have hsteady : PositionsMove s₁ (s₁.apply .drawNonce) :=
    ((h₁.inv.2 : Positions crypto s₁).apply_idle rfl).2
  have hnonce : ((f.view database (database.apply s₁ .drawNonce)).nonceSeq) = s₁.nonceSeq + 1 := by
    rw [view_nil h.idle]
    rfl
  rw [hnonce]
  refine hO.insertRound rfl rfl (by rw [h.idle]; rfl) (fun f₂ s₂ h₂ hpending hinserted => ?_)
    fun _ _ _ => endsReady_error
  refine onValue_ok (wp_pure fun _ _ s₃ h₃ => ?_)
  have hmove₃ : PositionsMove (s₁.apply .drawNonce) s₃ := h₂.rely.grows.2.trans h₃.grows.2
  have hsound : Positions crypto s₃ := h₃.inv.2
  have hgrows : Grows (s₁.apply .drawNonce) s₃ := hO.grows (h₂.rely.trans hO.lax.regular (h₃.mono h₂.kept)).grows
  have hdrawn₃ : DrawnFrom crypto s₀ outcome c s₃ :=
    hdrawn.grows (((hO.grows h₁.grows).trans (Grows.apply s₁ .drawNonce)).trans hgrows)
  have hlead : s₀.book.Leads s₃.book := ((h.rely h₁).trans (hsteady.trans hmove₃)).leads
  -- the index of chain positions has kept the position free
  have hfree : ¬s₃.book.Taken (s₀.book.top + 1) := by
    intro htaken
    obtain ⟨q, hq, hchain, hindex⟩ := hsound.taken (lookup_mem hdrawn₃.row) hdrawn₃.covers htaken
    have hlock : (.chainPosition outcome.chainId outcome.chainIndex, .exclusive) ∈ f₂.held :=
      hinserted.held (by simp [needs])
    have hsame : (s₃.rounds.any fun q => q.chainId == some outcome.chainId &&
        q.chainIndex == some outcome.chainIndex) = _ := hO.kept h₃ hlock
    rw [hinserted.position] at hsame
    have hplace : ((s₀.book.top + 1 : ℕ) : ℤ) - c.firstNonce + 1 = outcome.chainIndex := by
      have hnext := hdrawn.next
      push_cast
      omega
    have hany : (s₃.rounds.any fun q => q.chainId == some outcome.chainId &&
        q.chainIndex == some outcome.chainIndex) = true :=
      List.any_eq_true.2 ⟨q, hq, by rw [hchain, hindex, hdrawn.chainId, hplace]; simp⟩
    exact Bool.false_ne_true (hsame.symm.trans hany)
  have htop := hlead.steady hfree
  rw [hpending, h.idle, List.nil_append]
  refine .round hdrawn₃.row ⟨congrArg some hdrawn.chainId, rfl, hdrawn.seed⟩ ?_ ?_ ?_
  · rw [htop]
    exact hdrawn.next
  · show s₃.book.top < s₁.nonceSeq + 1
    omega
  · exact hmove₃.sequence

/-! ## The opening -/

/-- A part that opens nothing keeps the terms. -/
theorem idle_opening {p : Action α}
    (hp : p.Writes (fun _ => []) (fun w => w.opens = false) (fun w => w.isDraw = true) f.held)
    (hf : f.pending = []) :
    wp database (positions config crypto).eased (openingTerms crypto) p f s fun _ _ _ => True :=
  wp_mono (fun _ _ _ _ => trivial) ((positions_overlay config crypto).untouched
    (fun _ _ hrows => .idle hrows) hp (by rw [hf]; exact List.forall_mem_nil _))

/-- The round is inserted at the position that was predicted, or the insert fails. -/
theorem openDrawnRound_opening {outcome : RoundOutcome} {pocket : Option ℤ}
    (h : Peeked config crypto s₀ f s) (hdrawn : DrawnFrom crypto s₀ outcome c s) :
    wp database (positions config crypto).eased (openingTerms crypto)
      (openDrawnRound config game outcome pocket) f s fun _ _ _ => True := by
  refine wp_bind.2 (wp_mono (fun r f₁ s₁ hf₁ => ?_)
    (wp_transaction_ready (insertDrawnRound_opening h hdrawn)))
  cases r with
  | error e => trivial
  | ok id =>
    have hpublish : (autocommit (publish (.roundState id))).Writes (fun _ => [])
        (fun w => w.opens = false) (fun w => w.isDraw = true) f₁.held :=
      Within.transaction (Within.put rfl)
    refine wp_bind.2 (wp_mono (fun r f₂ s₂ _ => ?_) (idle_opening hpublish hf₁))
    cases r with
    | error e => trivial
    | ok _ => trivial

/-- An opening puts the next position of a chain on the books, or nothing. -/
theorem openRound_opening (hf : f.pending = []) :
    wp database (positions config crypto).eased (openingTerms crypto)
      (openRound config crypto game) f s fun _ _ _ => True := by
  refine wp_bind.2 (wp_selectOnward fun f₁ s₁ h₁ => onValue_ok ?_)
  have hf₁ : f₁.pending = [] := h₁.still.trans hf
  rw [view_nil hf₁, peekNextNonce_eq]
  have hpeeked : Peeked config crypto s₁ f₁ s₁ := ⟨hf₁, .refl s₁⟩
  refine wp_bind.2 (wp_mono (fun r f₂ s₂ hr => ?_) (drawOutcome_opening hpeeked))
  cases r with
  | error e => trivial
  | ok outcome =>
    obtain ⟨hpeeked₂, c, hdrawn⟩ := hr outcome rfl
    refine onValue_ok (wp_bind.2 (wp_check ?_))
    generalize (if game = .ROULETTE then _ else _ : Except AppError (Option ℤ)) = pocket
    cases pocket with
    | error e => trivial
    | ok pocket =>
      refine wp_handle.2 (wp_mono (fun r f₃ s₃ _ => ?_) (openDrawnRound_opening hpeeked₂ hdrawn))
      cases r with
      | ok id => exact wp_pure trivial
      | error e =>
        dsimp only
        split
        · exact wp_pure trivial
        · exact wp_throw trivial

/-- So does an opening that is made only when it is due. -/
theorem openRoundIfDue_opening (hf : f.pending = []) :
    wp database (positions config crypto).eased (openingTerms crypto)
      (openRoundIfDue config crypto game) f s fun _ _ _ => True := by
  refine wp_bind.2 (wp_selectOnward fun f₁ s₁ h₁ => onValue_ok ?_)
  have hf₁ : f₁.pending = [] := h₁.still.trans hf
  cases (lastSettled game (f₁.view database s₁)).bind Round.settledAt with
  | none => exact openRound_opening hf₁
  | some settledAt =>
    refine wp_bind.2 (wp_read fun x => onValue_ok ?_)
    split
    · exact wp_pure trivial
    · exact openRound_opening hf₁

/-! ## Every call -/

/-- Closing a round opens none. -/
theorem closesRound_opens {roundId : Uuid} {w : Write} (hw : ClosesRound roundId w) :
    w.opens = false := by
  rcases hw with hw | ⟨u, rfl⟩
  · cases w <;> first
      | rfl
      | simp [Write.table] at hw
  · rfl

/-- A write to another table opens nothing. -/
theorem tables_opens {tables : List Table} (hrounds : .rounds ∉ tables) (hchains : .chains ∉ tables)
    {w : Write} (hw : w.table ∈ tables) : w.opens = false := by
  cases w with
  | insertRound r => exact absurd hw hrounds
  | insertChain c => exact absurd hw hchains
  | _ => rfl

/-- An answer that is put into a reply changes nothing. -/
theorem opening_reply {g : α → Reply} {p : Action α}
    (hp : wp database (positions config crypto).eased (openingTerms crypto) p f s
      fun _ _ _ => True) :
    wp database (positions config crypto).eased (openingTerms crypto) (g <$> p) f s
      fun _ _ _ => True :=
  wp_map (wp_mono (fun _ _ _ _ => trivial) hp)

/-- A call that opens nothing. -/
theorem aside_opening {P : Write → Prop} (hP : ∀ w, P w → w.opens = false) {p : Action α}
    (hp : p.Writes (fun _ => []) P (fun w => w.isDraw = true) []) :
    wp database (positions config crypto).eased (openingTerms crypto) p {} s fun _ _ _ => True :=
  idle_opening (Writes.imp hP hp) rfl

/-- A tick opens a round at the next position, or none. -/
theorem tickGame_opening :
    wp database (positions config crypto).eased (openingTerms crypto) (tickGame config crypto game)
      {} s fun _ _ _ => True := by
  refine wp_bind.2 (wp_selectOnward fun f₁ s₁ h₁ => onValue_ok ?_)
  have hf₁ : f₁.pending = [] := h₁.still
  have hN : ∀ w, (fun _ : Write => ([] : List (LockKey × LockMode))) w ⊆ needs w :=
    fun _ => List.nil_subset _
  cases liveRoundOf game (f₁.view database s₁) with
  | none =>
    refine wp_bind.2 (wp_mono (fun r f₂ s₂ _ => ?_) (openRoundIfDue_opening hf₁))
    cases r with
    | ok id => trivial
    | error e => trivial
  | some live =>
    refine idle_opening (Writes.mono (List.nil_subset _) (Writes.bind_read fun x => ?_)) hf₁
    cases live.status with
    | OPEN =>
      dsimp only
      split
      · exact lockRound_writes hN (fun _ => rfl) fun _ _ => rfl
      · trivial
    | LOCKED => exact startRound_writes hN (fun _ => rfl) fun _ _ => rfl
    | RUNNING =>
      cases live.startedAt with
      | none => trivial
      | some startedAt =>
        dsimp only
        split
        · exact Writes.imp (fun _ => closesRound_opens) voidRound_writes
        · split
          · exact resolveRound_writes hN (fun _ => rfl) fun _ _ => rfl
          · trivial
    | RESOLVED => exact Writes.imp (fun _ => closesRound_opens) settleRound_writes
    | _ => trivial

/-- Every call draws the next position, or none. -/
theorem call_opening (c : Call) :
    wp database (positions config crypto).eased (openingTerms crypto) (program config crypto c) {} s
      fun _ _ _ => True := by
  have hN : ∀ w, (fun _ : Write => ([] : List (LockKey × LockMode))) w ⊆ needs w :=
    fun _ => List.nil_subset _
  cases c with
  | register dto =>
    exact opening_reply (aside_opening (fun _ => tables_opens (by simp) (by simp)) register_writes)
  | login dto => exact opening_reply (idle_opening (login_writes hN fun _ => rfl) rfl)
  | refresh rawToken =>
    exact opening_reply (idle_opening (refresh_writes hN (fun _ => rfl) fun _ _ => rfl) rfl)
  | logout rawToken => exact opening_reply (idle_opening (logout_writes hN fun _ _ => rfl) rfl)
  | placeBet input =>
    exact opening_reply (aside_opening (fun _ => tables_opens (by simp) (by simp)) placeBet_writes)
  | cashOut input =>
    exact opening_reply (aside_opening (fun _ => tables_opens (by simp) (by simp)) cashOut_writes)
  | openRoundIfDue game => exact opening_reply (openRoundIfDue_opening rfl)
  | lockRound roundId =>
    exact opening_reply (idle_opening (lockRound_writes hN (fun _ => rfl) fun _ _ => rfl) rfl)
  | startRound roundId =>
    exact opening_reply (idle_opening (startRound_writes hN (fun _ => rfl) fun _ _ => rfl) rfl)
  | resolveRound roundId =>
    exact opening_reply (idle_opening (resolveRound_writes hN (fun _ => rfl) fun _ _ => rfl) rfl)
  | settleRound roundId =>
    exact opening_reply (aside_opening (fun _ => closesRound_opens) settleRound_writes)
  | voidRound roundId =>
    exact opening_reply (aside_opening (fun _ => closesRound_opens) voidRound_writes)
  | tickGame game => exact opening_reply tickGame_opening

end

/-! ## Restarts -/

/-- A value of `FAIRNESS_CHAIN_LENGTH` that the environment is accepted with. -/
abbrev ChainLength := { n : ℕ // 10 ≤ n }

/-- A process that was started with another chain length. -/
def Config.withLength (config : Config) (n : ChainLength) : Config :=
  { config with fairnessChainLength := n.1, chainLength_ge := n.2 }

/-- A call, and the chain length of the process that answers it. -/
abbrev Request := ChainLength × Call

section
variable (config : Config) (crypto : Crypto)

/-- The program of a request. -/
def requests (q : Request) : Action Reply := program (config.withLength q.1) crypto q.2

/-- The runs in which every process has a chain length of its own. -/
def ReachesAcross (w : World Db LockKey Write Inputs AppError Reply Request) : Prop :=
  World.Run database (requests config crypto) (fun _ _ => True) ⟨migrated, []⟩ w

/-- The books do not depend on the chain length. -/
theorem consistent_withLength (n : ChainLength) (s : Db) :
    Consistent (config.withLength n) s ↔ Consistent config s := by
  constructor
  · intro h
    exact ⟨h.keyed, h.housed, h.fits,
      ⟨h.balanced.escrow, h.balanced.house, h.balanced.wallet, h.balanced.mint⟩,
      ⟨h.journalled.bets, h.journalled.known, h.journalled.grants, h.journalled.legs,
        h.journalled.entries⟩, h.tidy⟩
  · intro h
    exact ⟨h.keyed, h.housed, h.fits,
      ⟨h.balanced.escrow, h.balanced.house, h.balanced.wallet, h.balanced.mint⟩,
      ⟨h.journalled.bets, h.journalled.known, h.journalled.grants, h.journalled.legs,
        h.journalled.entries⟩, h.tidy⟩

/-- The lifecycle does not depend on the length of the next chain. -/
theorem lifecycle_withLength (n : ChainLength) :
    lifecycle (config.withLength n) = lifecycle config := by
  have hinv : Consistent (config.withLength n) = Consistent config :=
    funext fun s => propext (consistent_withLength config n s)
  unfold lifecycle books
  rw [hinv]

/-- The terms of a request. -/
def requestTerms (q : Request) : Terms Db LockKey Write :=
  (terms (config.withLength q.1) q.2).upon roundTerms

/-- Every request keeps the books and the lifecycles. -/
theorem requests_verified : Verified database (lifecycle config) (requests config crypto)
    (requestTerms config) fun _ q r f s => q.2.answer r f s ∧ True := by
  have hverified : ∀ n, Verified database (lifecycle config)
      (program (config.withLength n) crypto)
      (fun c => (terms (config.withLength n) c).upon roundTerms)
      fun _ c r f s => c.answer r f s ∧ True := fun n =>
    lifecycle_withLength config n ▸ lifecycle_verified
  have hany := hverified ⟨10, le_rfl⟩
  exact
    { discipline := hany.discipline
      lawful := fun q => (hverified q.1).lawful q.2
      stable := fun i q => (hverified q.1).stable i q.2
      lost := fun i q => (hverified q.1).lost i q.2
      start := fun i q => (hverified q.1).start i q.2 }

/-- The positions as a layer on the lifecycle, with a length chosen for each request. -/
theorem positions_layer : Layer database (lifecycle config) (Positions crypto) PositionsMove
    (requests config crypto) (requestTerms config) (fun _ => openingTerms crypto)
    fun _ _ _ _ _ => True where
  refl := PositionsMove.refl
  trans := PositionsMove.trans
  commits _ hs _ h := hs.after h
  draws {_ s row} _ hs hdraws _ := by
    have hdraw : row.opens = false := by
      rcases hdraws.1 with rfl | rfl <;> rfl
    exact hs.apply_idle hdraw
  stable _ _ _ _ _ _ _ _ := trivial
  lost _ _ _ _ := trivial
  start _ q s _ _ _ _ := by
    have hcall : wp database (positions (config.withLength q.1) crypto).eased (openingTerms crypto)
        (requests config crypto q) {} s fun _ _ _ => True := call_opening q.2
    unfold positions at hcall
    rw [lifecycle_withLength] at hcall
    exact hcall

/-- There are no rounds and no chains at first. -/
theorem migrated_positions : Positions crypto migrated :=
  ⟨Book.sound_empty, List.nodup_nil, List.forall_mem_nil _, le_rfl⟩

variable {config crypto}

/-- The positions are as they should be in every state that is reached. -/
theorem ReachesAcross.positions {w : World Db LockKey Write Inputs AppError Reply Request}
    (h : ReachesAcross config crypto w) : Positions crypto w.db := by
  have hadmits : ∀ (w : World Db LockKey Write Inputs AppError Reply Request) e, True →
      Admits (fun q => (requestTerms config q).upon (openingTerms crypto)) w e := by
    intro w e _
    cases e with
    | start q => exact ⟨⟨trivial, trivial⟩, trivial⟩
    | run i x => exact fun _ _ => ⟨⟨trivial, trivial⟩, trivial⟩
    | kill i => trivial
  have hsound := World.Sound.run ((requests_verified config crypto).upon
    (positions_layer config crypto)) hadmits h
    (.idle ⟨⟨migrated_consistent config, migrated_lifecycle⟩, migrated_positions crypto⟩)
  exact hsound.1.inv.2

/-- Chain positions are never shared and always covered. -/
theorem reachable_positions {w : World Db LockKey Write Inputs AppError Reply Request}
    (h : ReachesAcross config crypto w) :
    (w.db.chains.Pairwise fun c d => ∀ n, ¬(c.block.Covers n ∧ d.block.Covers n)) ∧
      (∀ r ∈ w.db.rounds, ∀ id, r.chainId = some id → ∃ c index, w.db.chain id = some c ∧
        r.chainIndex = some index ∧ 1 ≤ index ∧ index ≤ c.length ∧
        deriveChainSeed crypto.sha256 c.terminalSeed c.length index = .ok r.seed) ∧
      (w.db.rounds.Pairwise fun r r' => r.chainId.isSome = true →
        ¬(r.chainId = r'.chainId ∧ r.chainIndex = r'.chainIndex)) ∧
      ∀ r ∈ w.db.rounds, ∀ r' ∈ w.db.rounds, r.chainId = r'.chainId → r.nonce < r'.nonce →
        ∃ i j, r.chainIndex = some i ∧ r'.chainIndex = some j ∧ i < j := by
  have hs := h.positions
  refine ⟨?_, fun r hr id hid => ?_, ?_, fun r hr r' hr' hchain hnonce => ?_⟩
  · refine (List.pairwise_map.1 hs.book.apart).imp fun {c d} hapart n => ?_
    rintro ⟨⟨-, hlast⟩, hfirst, -⟩
    exact absurd (hlast.trans_le hapart) (not_lt.2 hfirst)
  · obtain ⟨c, hc, index, hdrew⟩ := hs.drew r hr
    obtain rfl : c.id = id := Option.some.inj (hdrew.chainId.symm.trans hid)
    exact ⟨c, index, hs.chain_of_mem hc, hdrew.chainIndex, hdrew.bounds.1, hdrew.bounds.2,
      hdrew.seed⟩
  · refine (List.pairwise_map.1 hs.book.sorted).imp fun {r r'} hsorted _ hsame => ?_
    -- one chain and one index make one position
    have hposition : w.db.positionOf r = w.db.positionOf r' := by
      unfold Db.positionOf
      rw [hsame.1, hsame.2]
    exact absurd hsorted.2 (not_lt.2 hposition.ge)
  · obtain ⟨c, hc, i, hdrew⟩ := hs.drew r hr
    obtain ⟨d, hd, j, hdrew'⟩ := hs.drew r' hr'
    have hid : c.id = d.id :=
      Option.some.inj (hdrew.chainId.symm.trans (hchain.trans hdrew'.chainId))
    obtain rfl : c = d := eq_of_key hs.ids hc hd hid
    have hlt : w.db.positionOf r < w.db.positionOf r' :=
      hs.book.position_lt (List.mem_map_of_mem hr) (List.mem_map_of_mem hr') hnonce
    have hi := hdrew.positionOf (hs.chain_of_mem hc)
    have hj := hdrew'.positionOf (hs.chain_of_mem hc)
    exact ⟨i, j, hdrew.chainIndex, hdrew'.chainIndex, by omega⟩

end

/-- The world after a list of events of processes with chain lengths of their own. -/
def executedAcross (events : List (Event Inputs Request)) :
    World Db LockKey Write Inputs AppError Reply Request :=
  World.attempt database (requests smallConfig plainCrypto) ⟨migrated, []⟩ events

/-- The states of a list of events are reached. -/
theorem reachesAcross_executed (events : List (Event Inputs Request)) :
    ReachesAcross smallConfig plainCrypto (executedAcross events) :=
  World.Run.attempt (fun _ _ => trivial) (.refl _) events

/-- Two processes race for the first chain, and the one that lost tries again. -/
def firstChain : List (Event Inputs Request) :=
  .start (⟨10, le_rfl⟩, .openRoundIfDue .ROULETTE) ::
  .start (⟨10 + 10, Nat.le_add_left 10 10⟩, .openRoundIfDue .CRASH) ::
  (List.range 25).flatMap (fun j => [.run 0 (readingAt j 0), .run 1 (readingAt (40 + j) 0)]) ++
  .start (⟨10 + 10, Nat.le_add_left 10 10⟩, .openRoundIfDue .CRASH) ::
  (List.range 25).map fun j => .run 2 (readingAt (80 + j) 0)

/-- There is one chain, and its first two positions are drawn. -/
theorem reachable_positions_firstChain :
    ((executedAcross firstChain).db.chains.map fun c => (c.firstNonce, c.length)) = [(1, 10)] ∧
      ((executedAcross firstChain).db.rounds.map fun r => (r.nonce, r.chainIndex)) =
        [(1, some 1), (2, some 2)] ∧
      (executedAcross firstChain).db.rounds.Pairwise fun r r' => r.chainId.isSome = true →
        ¬(r.chainId = r'.chainId ∧ r.chainIndex = r'.chainIndex) :=
  ⟨by decide +kernel, by decide +kernel, (reachable_positions (reachesAcross_executed firstChain)).2.2.1⟩

end Tessera
