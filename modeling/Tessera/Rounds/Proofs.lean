import Tessera.Contracts.Published
import Tessera.Rounds.Openings

/-!
# What the published proofs prove

A round is drawn on the nonce that its opening predicted and stored under the one that the sequence
gave it.  Its proof names the second; the first is the position of its chain index, and it is the
position that the outcome was computed from.

* `FairnessChain.Committed`, `Round.Resolves` — a chain and its genesis hash, a round and its
  outcome;
* `Provable` — what is true of all of them;
* `drawOutcome_drawn`, `openRound_drawn` — the opening of a round;
* `reachable_proofs` — the checks that every published proof passes;
* `skippedNonce` — a round whose nonce is not its position.

Source: `hash-chain-fairness.provider.ts`, `round-engine.service.ts` `openRoundIfDue`,
`fairness.service.ts` `getProof`.
-/

namespace Tessera

open Relational Transactions Transactions.Program Allotment

/-- The genesis hash of a chain is the hash of its first seed. -/
def FairnessChain.Committed (crypto : Crypto) (c : FairnessChain) : Prop :=
  ∃ first, deriveChainSeed crypto.sha256 c.terminalSeed c.length 1 = .ok first ∧
    c.genesisHash = crypto.sha256 first

/-- The outcome of a round is the one of its seed and the given nonce. -/
def Round.Resolves (crypto : Crypto) (r : Round) (nonce : ℕ) : Prop :=
  match r.game with
  | .CRASH => ∃ crashPointBp, r.crashPointBp = some crashPointBp ∧
      crashPointFromHash (crypto.hmacSha256 r.seed (toString nonce)) = .ok crashPointBp
  | .ROULETTE => ∃ pocket, r.winningPocket = some pocket ∧
      roulettePocketFromHash (crypto.hmacSha256 r.seed (toString nonce)) = .ok pocket

/-- A round that was drawn from a chain, with its hash and its outcome. -/
structure Round.DrawnFrom (crypto : Crypto) (r : Round) (c : FairnessChain) (index : ℤ) (nonce : ℕ) :
    Prop extends c.Drew crypto r index where
  position : c.firstNonce + index = nonce + 1
  hash : r.seedHash = crypto.sha256 r.seed
  resolves : r.Resolves crypto nonce

/-- A row that is inserted is as the proofs need it. -/
def Write.Drawn (crypto : Crypto) (s : Db) : Write → Prop
  | .insertChain c => c.Committed crypto
  | .insertRound r => ∃ c index nonce, s.chain c.id = some c ∧ r.DrawnFrom crypto c index nonce
  | _ => True

/-- What is true of the chains, and of the rounds drawn from them. -/
structure Provable (crypto : Crypto) (s : Db) : Prop where
  chains : ∀ c ∈ s.chains, c.Committed crypto
  rounds : ∀ r ∈ s.rounds, ∃ c index nonce, s.chain c.id = some c ∧
    r.DrawnFrom crypto c index nonce

/-- The terms of every call. -/
abbrev drawnTerms (crypto : Crypto) : Terms Db LockKey Write :=
  .committing fun s rows => ∀ w ∈ rows, w.Drawn crypto s

section
variable {crypto : Crypto} {s s' : Db} {w : Write} {rows : List Write}

/-- A write that opens nothing need not be drawn. -/
theorem Write.drawn_of_idle (h : w.opens = false) : w.Drawn crypto s := by
  cases w with
  | insertChain c => cases h
  | insertRound r => cases h
  | _ => trivial

/-- The outcome of a round does not change with its life. -/
theorem Round.DrawnFrom.of_core {r q : Round} {c : FairnessChain} {index : ℤ} {nonce : ℕ}
    (h : q.DrawnFrom crypto c index nonce) (hcore : r.core = q.core) :
    r.DrawnFrom crypto c index nonce := by
  have hseed : r.seed = q.seed := by
    have h := congrArg Round.seed hcore
    exact h
  have hhash : r.seedHash = q.seedHash := by
    have h := congrArg Round.seedHash hcore
    exact h
  have hgame : r.game = q.game := by
    have h := congrArg Round.game hcore
    exact h
  have hcrash : r.crashPointBp = q.crashPointBp := by
    have h := congrArg Round.crashPointBp hcore
    exact h
  have hpocket : r.winningPocket = q.winningPocket := by
    have h := congrArg Round.winningPocket hcore
    exact h
  refine ⟨h.toDrew.of_core hcore, h.position, ?_, ?_⟩
  · rw [hhash, hseed]
    exact h.hash
  · unfold Round.Resolves
    rw [hseed, hgame, hcrash, hpocket]
    exact h.resolves

/-- One more write. -/
theorem Provable.apply (h : Provable crypto s') (hgrows : Grows s s') (hw : w.Drawn crypto s) :
    Provable crypto (s'.apply w) := by
  have hkept : ∀ {c : FairnessChain}, s'.chain c.id = some c →
      (s'.apply w).chain c.id = some c := fun hc => (Grows.apply s' w).chain hc
  refine ⟨fun c hc => ?_, fun r hr => ?_⟩
  · by_cases hopens : ∃ c', w = .insertChain c'
    · obtain ⟨c', rfl⟩ := hopens
      rcases List.mem_append.1 hc with hc | hc
      · exact h.chains c hc
      · exact List.mem_singleton.1 hc ▸ hw
    · have hsame : (s'.apply w).chains = s'.chains := by
        rw [Db.apply_chains]
        cases w with
        | insertChain c' => exact absurd ⟨c', rfl⟩ hopens
        | _ => rfl
      exact h.chains c (hsame ▸ hc)
  · have hold : ∀ q ∈ s'.rounds, r.core = q.core → ∃ c index nonce,
        (s'.apply w).chain c.id = some c ∧ r.DrawnFrom crypto c index nonce := by
      intro q hq hcore
      obtain ⟨c, index, nonce, hc, hdrawn⟩ := h.rounds q hq
      exact ⟨c, index, nonce, hkept hc, hdrawn.of_core hcore⟩
    by_cases hopens : ∃ r', w = .insertRound r'
    · obtain ⟨r', rfl⟩ := hopens
      rcases List.mem_append.1 hr with hr | hr
      · exact hold r hr rfl
      · obtain ⟨c, index, nonce, hc, hdrawn⟩ := hw
        exact ⟨c, index, nonce, hkept (hgrows.chain hc), List.mem_singleton.1 hr ▸ hdrawn⟩
    · have hcores : (s'.apply w).rounds.map Round.core = s'.rounds.map Round.core := by
        cases w with
        | insertRound r' => exact absurd ⟨r', rfl⟩ hopens
        | updateRound id u => exact map_modify fun _ => rfl
        | _ => rfl
      have hmem : r.core ∈ s'.rounds.map Round.core := hcores ▸ List.mem_map_of_mem hr
      obtain ⟨q, hq, hcore⟩ := List.mem_map.1 hmem
      exact hold q hq hcore.symm

/-- Rounds that are drawn rightly can be proved. -/
theorem Provable.after (h : Provable crypto s) (hrows : ∀ w ∈ rows, w.Drawn crypto s) :
    Provable crypto (database.applyAll s rows) := by
  have hall : ∀ s' : Db, Grows s s' → Provable crypto s' →
      Provable crypto (database.applyAll s' rows) := by
    induction rows with
    | nil => exact fun s' _ h => h
    | cons w rows ih =>
      intro s' hgrows h
      obtain ⟨hw, hrest⟩ := List.forall_mem_cons.1 hrows
      exact ih hrest (s'.apply w) (hgrows.trans (Grows.apply s' w)) (h.apply hgrows hw)
  exact hall s (Grows.refl s) h

end

/-! ## The opening of a round -/

section
variable {R : Discipline Db LockKey Write} {config : Config} {crypto : Crypto}
variable {f f' : Standing Db LockKey Write} {s s' : Db} {α : Type} {nonce : ℕ}

/-- An outcome that was drawn from a chain which is still there. -/
structure RoundOutcome.Drawn (crypto : Crypto) (nonce : ℕ) (outcome : RoundOutcome)
    (c : FairnessChain) (s : Db) : Prop where
  row : s.chain c.id = some c
  chainId : outcome.chainId = c.id
  position : c.firstNonce + outcome.chainIndex = nonce + 1
  seed : deriveChainSeed crypto.sha256 c.terminalSeed c.length outcome.chainIndex = .ok outcome.seed
  hash : outcome.seedHash = crypto.sha256 outcome.seed
  crashPoint : crashPointFromHash (crypto.hmacSha256 outcome.seed (toString nonce)) =
    .ok outcome.crashPointBp

/-- An outcome that was drawn from a chain is still drawn from it later. -/
theorem RoundOutcome.Drawn.grows {outcome : RoundOutcome} {c : FairnessChain}
    (h : outcome.Drawn crypto nonce c s) (hg : Grows s s') : outcome.Drawn crypto nonce c s' :=
  { h with row := hg.chain h.row }

/-- A part ends with nothing pending, and with a chain that is there. -/
def WithChain (chain : ActiveChain) (f : Standing Db LockKey Write) (s : Db) : Prop :=
  f.pending = [] ∧ ∃ c : FairnessChain, chain = c.active ∧ s.chain c.id = some c

variable (hO : Overlay R (drawnTerms crypto))
  (hids : ∀ s, R.inv s → (s.chains.map FairnessChain.id).Nodup) (hf : f.pending = [])
include hO hf

omit hids in
/-- The chain that is created is in sight. -/
theorem createChain_drawn :
    wp database R (drawnTerms crypto) (createChain config crypto nonce) f s fun r f' s' =>
      ∀ chain, r = .ok chain → WithChain chain f' s' := by
  have herror : ∀ {e : AppError} {f' : Standing Db LockKey Write} {s' : Db},
      ∀ chain : ActiveChain, (.error e : Except AppError ActiveChain) = .ok chain →
        WithChain chain f' s' := by
    intro e f' s' chain heq
    cases heq
  refine wp_bind.2 (wp_read fun x => onValue_ok (wp_bind.2 (wp_check ?_)))
  cases hfirst : deriveChainSeed crypto.sha256 x.randomBytes config.fairnessChainLength 1 with
  | error e => exact herror
  | ok firstSeed =>
    refine onValue_ok (wp_bind.2 (wp_transaction (hO.insertChain hf
      (fun f₁ s₁ _ hpending hinserted => ?_) fun e f₁ s₁ => fun _ _ => herror)))
    intro s₂ h₂ _
    refine ⟨fun _ => ⟨?_, onValue_ok (wp_pure fun chain heq => ?_)⟩, fun e _ => herror⟩
    · rw [hpending]
      intro w hw
      rw [List.mem_singleton.1 hw]
      exact ⟨firstSeed, hfirst, rfl⟩
    · cases heq
      refine ⟨rfl, _, rfl, ?_⟩
      unfold Standing.view
      rw [hpending]
      exact lookup_append_new (hinserted s₂ h₂).id

include hids

/-- So is the chain that is found. -/
theorem chainFor_drawn :
    wp database R (drawnTerms crypto) (chainFor config crypto nonce) f s fun r f' s' =>
      ∀ chain, r = .ok chain → WithChain chain f' s' := by
  refine wp_bind.2 (wp_selectOnward fun f₁ s₁ h₁ => onValue_ok ?_)
  have hf₁ : f₁.pending = [] := h₁.still.trans hf
  rw [view_nil hf₁]
  cases hfound : coveringChain nonce s₁ with
  | none => exact createChain_drawn hO hf₁
  | some c =>
    refine wp_pure fun chain heq => ?_
    cases heq
    exact ⟨hf₁, c, rfl, lookup_of_mem (hids s₁ h₁.rely.inv) (coveringChain_some hfound).1⟩

/-- The outcome is computed from the seed of the chain at its index. -/
theorem drawOutcome_drawn :
    wp database R (drawnTerms crypto) (drawOutcome config crypto nonce) f s fun r f' s' =>
      ∀ outcome, r = .ok outcome → f'.pending = [] ∧ ∃ c, outcome.Drawn crypto nonce c s' := by
  have herror : ∀ {e : AppError} {f' : Standing Db LockKey Write} {s' : Db},
      ∀ outcome : RoundOutcome, (.error e : Except AppError RoundOutcome) = .ok outcome →
        f'.pending = [] ∧ ∃ c, outcome.Drawn crypto nonce c s' := by
    intro e f' s' outcome heq
    cases heq
  refine wp_bind.2 (wp_mono (fun r f₁ s₁ hr => ?_) (chainFor_drawn hO hids hf))
  cases r with
  | error e => exact herror
  | ok chain =>
    obtain ⟨hf₁, c, rfl, hc⟩ := hr chain rfl
    refine onValue_ok (wp_bind.2 (wp_selectOnward fun f₂ s₂ h₂ => onValue_ok ?_))
    have hf₂ : f₂.pending = [] := h₂.still.trans hf₁
    have hrow : s₂.chain c.active.id = some c := (hO.grows h₂.rely.grows).chain hc
    rw [view_nil hf₂, hrow]
    refine wp_bind.2 (wp_check ?_)
    cases hseed : deriveChainSeed crypto.sha256 c.terminalSeed c.active.length
        ((nonce : ℤ) - c.active.firstNonce + 1) with
    | error e => exact herror
    | ok seed =>
      refine onValue_ok (wp_bind.2 (wp_check ?_))
      cases hverified : verifyOutcome crypto seed nonce with
      | error e => exact herror
      | ok verified =>
        unfold verifyOutcome at hverified
        split at hverified
        case h_2 => cases hverified
        case h_1 crashPointBp hcrash =>
        cases hverified
        refine onValue_ok (wp_pure fun outcome heq => ?_)
        cases heq
        refine ⟨hf₂, c, hrow, rfl, ?_, hseed, rfl, hcrash⟩
        simp only [FairnessChain.active]
        ring

omit hids in
/-- The row that is inserted has the outcome that was drawn. -/
theorem insertDrawnRound_drawn {game : GameKind} {outcome : RoundOutcome} {pocket : Option ℤ}
    {c : FairnessChain} (hdrawn : outcome.Drawn crypto nonce c s)
    (hpocket : game = .ROULETTE → ∃ p, pocket = some p ∧
      roulettePocketFromHash (crypto.hmacSha256 outcome.seed (toString nonce)) = .ok p) :
    wp database R (drawnTerms crypto) (insertDrawnRound config game outcome pocket) f s
      (EndsReady R fun s rows => ∀ w ∈ rows, w.Drawn crypto s) := by
  refine wp_bind.2 (wp_read fun x => onValue_ok (wp_bind.2 (wp_draw (fun _ _ => trivial)
    fun s₁ h₁ => onValue_ok (wp_bind.2 ?_))))
  refine hO.insertRound rfl rfl (by rw [hf]; rfl) (fun f₂ s₂ h₂ hpending _ => ?_)
    fun _ _ _ => endsReady_error
  refine onValue_ok (wp_pure fun _ _ s₃ h₃ => ?_)
  have hgrows : Grows s s₃ := ((hO.grows h₁.grows).trans (Grows.apply s₁ .drawNonce)).trans
    (hO.grows (h₂.rely.trans hO.lax.regular (h₃.mono h₂.kept)).grows)
  have hthere := hdrawn.grows hgrows
  rw [hpending, hf, List.nil_append]
  intro w hw
  rw [List.mem_singleton.1 hw]
  refine ⟨c, outcome.chainIndex, nonce, hthere.row,
    ⟨⟨congrArg some hdrawn.chainId, rfl, hdrawn.seed⟩, hdrawn.position, hdrawn.hash, ?_⟩⟩
  unfold Round.Resolves
  cases game with
  | CRASH => exact ⟨_, rfl, hdrawn.crashPoint⟩
  | ROULETTE => exact hpocket rfl

omit hids hf in
/-- Writes that open nothing. -/
theorem idle_drawn {p : Action α}
    (hp : p.Writes (fun _ => []) (fun w => w.opens = false) (fun w => w.isDraw = true) f.held)
    (hf : f.pending = []) : wp database R (drawnTerms crypto) p f s fun _ _ _ => True :=
  wp_mono (fun _ _ _ _ => trivial) (hO.untouched
    (fun _ _ hrows w hw => Write.drawn_of_idle (hrows w hw)) hp
    (by rw [hf]; exact List.forall_mem_nil _))

/-- Every round that is inserted was drawn so. -/
theorem openRound_drawn {game : GameKind} :
    wp database R (drawnTerms crypto) (openRound config crypto game) f s fun _ _ _ => True := by
  refine wp_bind.2 (wp_selectOnward fun f₁ s₁ h₁ => onValue_ok ?_)
  generalize peekNextNonce (f₁.view database s₁) = nonce
  refine wp_bind.2 (wp_mono (fun r f₂ s₂ hr => ?_)
    (drawOutcome_drawn hO hids (h₁.still.trans hf)))
  cases r with
  | error e => trivial
  | ok outcome =>
    obtain ⟨hf₂, c, hdrawn⟩ := hr outcome rfl
    refine onValue_ok (wp_bind.2 (wp_check ?_))
    cases hpocket : (if game = .ROULETTE then
        (roulettePocketFromHash (crypto.hmacSha256 outcome.seed (toString nonce))).map some
      else .ok none : Except AppError (Option ℤ)) with
    | error e => trivial
    | ok pocket =>
      have hroulette : game = .ROULETTE → ∃ p, pocket = some p ∧
          roulettePocketFromHash (crypto.hmacSha256 outcome.seed (toString nonce)) = .ok p := by
        rintro rfl
        rw [if_pos rfl] at hpocket
        cases hhash : roulettePocketFromHash (crypto.hmacSha256 outcome.seed (toString nonce)) with
        | error e =>
          rw [hhash] at hpocket
          cases hpocket
        | ok p =>
          rw [hhash] at hpocket
          cases hpocket
          exact ⟨p, rfl, rfl⟩
      refine onValue_ok (wp_handle.2 (wp_mono (Q := fun _ _ _ => True) (fun r f₃ s₃ _ => ?_) ?_))
      · cases r with
        | ok id => exact wp_pure trivial
        | error e =>
          dsimp only
          split
          · exact wp_pure trivial
          · exact wp_throw trivial
      · refine wp_bind.2 (wp_mono (fun r f₃ s₃ hf₃ => ?_)
          (wp_transaction_ready (insertDrawnRound_drawn hO hf₂ hdrawn hroulette)))
        cases r with
        | error e => trivial
        | ok id =>
          have hpublish : (autocommit (publish (.roundState id))).Writes (fun _ => [])
              (fun w => w.opens = false) (fun w => w.isDraw = true) f₃.held :=
            Within.transaction (Within.put rfl)
          refine wp_bind.2 (wp_mono (fun r _ _ _ => ?_) (idle_drawn hO hpublish hf₃))
          cases r with
          | error e => trivial
          | ok _ => trivial

/-- So it is when it is due. -/
theorem openRoundIfDue_drawn {game : GameKind} :
    wp database R (drawnTerms crypto) (openRoundIfDue config crypto game) f s
      fun _ _ _ => True := by
  refine wp_bind.2 (wp_selectOnward fun f₁ s₁ h₁ => onValue_ok ?_)
  have hf₁ : f₁.pending = [] := h₁.still.trans hf
  cases (lastSettled game (f₁.view database s₁)).bind Round.settledAt with
  | none => exact openRound_drawn hO hids hf₁
  | some settledAt =>
    refine wp_bind.2 (wp_read fun x => onValue_ok ?_)
    split
    · exact wp_pure trivial
    · exact openRound_drawn hO hids hf₁

omit hf

/-- A tick opens a round, or writes neither a round nor a chain. -/
theorem tickGame_drawn {game : GameKind} :
    wp database R (drawnTerms crypto) (tickGame config crypto game) {} s fun _ _ _ => True := by
  have hN : ∀ w, (fun _ : Write => ([] : List (LockKey × LockMode))) w ⊆ needs w :=
    fun _ => List.nil_subset _
  refine wp_bind.2 (wp_selectOnward fun f₁ s₁ h₁ => onValue_ok ?_)
  cases liveRoundOf game (f₁.view database s₁) with
  | none =>
    refine wp_bind.2 (wp_mono (fun r f₂ s₂ _ => ?_) (openRoundIfDue_drawn hO hids h₁.still))
    cases r with
    | ok id => trivial
    | error e => trivial
  | some live =>
    refine idle_drawn hO (Writes.mono (List.nil_subset _) (Writes.bind_read fun x => ?_)) h₁.still
    cases live.status with
    | OPEN =>
      dsimp only
      split
      · exact lockRound_writes hN (fun _ => rfl) fun _ _ => rfl
      · trivial
    | LOCKED => exact startRound_writes hN (fun _ => rfl) fun _ _ => rfl
    | RUNNING =>
      cases live.startedAt with
      | none => trivial
      | some startedAt =>
        dsimp only
        split
        · exact Writes.imp (fun _ => closesRound_opens) voidRound_writes
        · split
          · exact resolveRound_writes hN (fun _ => rfl) fun _ _ => rfl
          · trivial
    | RESOLVED => exact Writes.imp (fun _ => closesRound_opens) settleRound_writes
    | _ => trivial

/-- Every call inserts rounds and chains as the proofs need them. -/
theorem call_drawn (c : Call) :
    wp database R (drawnTerms crypto) (program config crypto c) {} s fun _ _ _ => True := by
  have hN : ∀ w, (fun _ : Write => ([] : List (LockKey × LockMode))) w ⊆ needs w :=
    fun _ => List.nil_subset _
  have hreply : ∀ {β : Type} {g : β → Reply} {p : Action β},
      (wp database R (drawnTerms crypto) p {} s fun _ _ _ => True) →
        wp database R (drawnTerms crypto) (g <$> p) {} s fun _ _ _ => True :=
    fun h => wp_map (wp_mono (fun _ _ _ _ => trivial) h)
  have haside : ∀ {β : Type} {P : Write → Prop} {g : β → Reply} {p : Action β},
      (∀ w, P w → w.opens = false) → p.Writes (fun _ => []) P (fun w => w.isDraw = true) [] →
        wp database R (drawnTerms crypto) (g <$> p) {} s fun _ _ _ => True :=
    fun hP h => hreply (idle_drawn hO (Writes.imp hP h) rfl)
  cases c with
  | register dto => exact haside (fun _ => tables_opens (by simp) (by simp)) register_writes
  | login dto => exact hreply (idle_drawn hO (login_writes hN fun _ => rfl) rfl)
  | refresh rawToken =>
    exact hreply (idle_drawn hO (refresh_writes hN (fun _ => rfl) fun _ _ => rfl) rfl)
  | logout rawToken => exact hreply (idle_drawn hO (logout_writes hN fun _ _ => rfl) rfl)
  | placeBet input => exact haside (fun _ => tables_opens (by simp) (by simp)) placeBet_writes
  | cashOut input => exact haside (fun _ => tables_opens (by simp) (by simp)) cashOut_writes
  | openRoundIfDue game => exact hreply (openRoundIfDue_drawn hO hids rfl)
  | lockRound roundId =>
    exact hreply (idle_drawn hO (lockRound_writes hN (fun _ => rfl) fun _ _ => rfl) rfl)
  | startRound roundId =>
    exact hreply (idle_drawn hO (startRound_writes hN (fun _ => rfl) fun _ _ => rfl) rfl)
  | resolveRound roundId =>
    exact hreply (idle_drawn hO (resolveRound_writes hN (fun _ => rfl) fun _ _ => rfl) rfl)
  | settleRound roundId => exact haside (fun _ => closesRound_opens) settleRound_writes
  | voidRound roundId => exact haside (fun _ => closesRound_opens) voidRound_writes
  | tickGame game => exact hreply (tickGame_drawn hO hids)

end

/-! ## The whole system -/

section
variable (config : Config) (crypto : Crypto)

/-- The proofs as a layer on the positions: every call keeps its terms. -/
theorem provable_layer : Layer database (positions config crypto) (Provable crypto)
    (fun _ _ => True) (requests config crypto)
    (fun q => (requestTerms config q).upon (openingTerms crypto)) (fun _ => drawnTerms crypto)
    fun _ _ _ _ _ => True where
  refl _ := trivial
  trans _ _ := trivial
  commits _ hs _ h := ⟨hs.after h, trivial⟩
  draws {_ s row} _ hs hdraws _ := by
    have hidle : row.Drawn crypto s := by
      rcases hdraws.1.1 with rfl | rfl <;> trivial
    exact ⟨hs.apply (Grows.refl s) hidle, trivial⟩
  stable _ _ _ _ _ _ _ _ := trivial
  lost _ _ _ _ := trivial
  start _ q s _ _ _ _ := by
    have hbase : Base ((positions config crypto).upon (Provable crypto) fun _ _ => True) :=
      (positions_base config crypto).upon (fun _ => trivial) (fun _ _ => trivial) fun hs hw =>
        ⟨hs.apply (Grows.refl _) (Write.drawn_of_idle (isDraw_opens hw)), trivial⟩
    exact call_drawn (hbase.overlay _) (fun s hs => hs.1.2.ids) q.2

variable {config crypto}

/-- In every world reached the rounds are in order, the positions are shared by none, and the
proofs have what they need. -/
theorem ReachesAcross.inv {w : World Db LockKey Write Inputs AppError Reply Request}
    (h : ReachesAcross config crypto w) :
    Lifecycle w.db ∧ Positions crypto w.db ∧ Provable crypto w.db := by
  have hadmits : ∀ (w : World Db LockKey Write Inputs AppError Reply Request) e, True →
      Admits (fun q => ((requestTerms config q).upon (openingTerms crypto)).upon
        (drawnTerms crypto)) w e := by
    intro w e _
    cases e with
    | start q => exact ⟨⟨⟨trivial, trivial⟩, trivial⟩, trivial⟩
    | run i x => exact fun _ _ => ⟨⟨⟨trivial, trivial⟩, trivial⟩, trivial⟩
    | kill i => trivial
  have hstart : Provable crypto migrated := ⟨List.forall_mem_nil _, List.forall_mem_nil _⟩
  have hsound := World.Sound.run (((requests_verified config crypto).upon
    (positions_layer config crypto)).upon (provable_layer config crypto)) hadmits h
    (.idle ⟨⟨⟨migrated_consistent config, migrated_lifecycle⟩, migrated_positions crypto⟩, hstart⟩)
  exact ⟨hsound.1.inv.1.1.2, hsound.1.inv.1.2, hsound.1.inv.2⟩

/-- The published checks on a proof, its outcome recomputed from the given nonce. -/
structure FairnessProof.Passes (crypto : Crypto) (p : FairnessProof) (seed : String) (nonce : ℕ) :
    Prop where
  revealed : p.seedRevealed = some seed
  hash : crypto.sha256 seed = p.seedHash
  chain : ∃ v, verifyChainProof crypto.sha256 ⟨seed, p.chainIndex, p.genesisHash⟩ = .ok v ∧
    v.valid = true
  outcome : match p.game with
    | .CRASH => ∃ crashPointBp, p.crashPointBp = some crashPointBp ∧
        crashPointFromHash (crypto.hmacSha256 seed (toString nonce)) = .ok crashPointBp
    | .ROULETTE => ∃ pocket, p.winningPocket = some pocket ∧
        roulettePocketFromHash (crypto.hmacSha256 seed (toString nonce)) = .ok pocket

/-- The proof of a concluded round passes on the position that the round was drawn from. -/
theorem Round.DrawnFrom.passes {s : Db} {r : Round} {c : FairnessChain} {index : ℤ} {nonce : ℕ}
    (h : r.DrawnFrom crypto c index nonce) (hc : s.chain c.id = some c)
    (hcommitted : c.Committed crypto) (hsound : r.Sound) (hconcluded : r.status.concluded = true) :
    (proofOf s r).Passes crypto r.seed nonce := by
  have hrevealed : r.status.revealed = true := by simp [RoundStatus.revealed, hconcluded]
  have hbounds := h.bounds
  refine ⟨?_, h.hash.symm, ?_, ?_⟩
  · simp only [proofOf, hrevealed, if_true]
    rw [hsound.revealed, if_pos hrevealed]
  · -- hashing the seed as often as its index says arrives at the genesis hash
    obtain ⟨first, hfirst, hgenesis⟩ := hcommitted
    have hderived := h.seed
    rw [derive_eq hbounds.1 hbounds.2] at hderived
    rw [derive_eq le_rfl (hbounds.1.trans hbounds.2)] at hfirst
    have hmet := @genesis_eq crypto.sha256 c.terminalSeed c.length index hbounds.1
      hbounds.2
    rw [Except.ok.inj hderived, Except.ok.inj hfirst] at hmet
    have hproof : (proofOf s r).chainIndex = index ∧
        (proofOf s r).genesisHash = c.genesisHash := by
      simp [proofOf, h.chainIndex, h.chainId, hc]
    refine ⟨⟨true, c.genesisHash, index⟩, ?_, rfl⟩
    unfold verifyChainProof hashTimes
    rw [hproof.1, hproof.2, if_neg (not_lt.2 hbounds.1), hmet, hgenesis]
    simp
  · have hresolves := h.resolves
    unfold Round.Resolves at hresolves
    simp only [proofOf, hconcluded, if_true]
    exact hresolves

/-- Every published proof passes its checks on the position of its chain index, which anyone can
read off the list of the chains.  That position is the nonce of the proof, unless a nonce was
skipped before it. -/
theorem reachable_proofs {w : World Db LockKey Write Inputs AppError Reply Request}
    (h : ReachesAcross config crypto w) {r : Round} (hr : r ∈ w.db.rounds)
    (hconcluded : r.status.concluded = true) :
    ∃ p nonce, getProof w.db r.id = .ok p ∧ p.Passes crypto r.seed nonce ∧
      (∃ c ∈ listChains w.db, p.genesisHash = c.genesisHash ∧
        (nonce : ℤ) = c.firstNonce + p.chainIndex - 1) ∧
      nonce ≤ p.nonce ∧
      (p.nonce = 1 ∨ (∃ q ∈ w.db.rounds, q.nonce + 1 = p.nonce) → nonce = p.nonce) := by
  obtain ⟨hlifecycle, hpositions, hprovable⟩ := h.inv
  obtain ⟨c, index, nonce, hc, hdrawn⟩ := hprovable.rounds r hr
  have hround : w.db.round r.id = some r := hlifecycle.round_of_mem hr
  have hposition : w.db.positionOf r = nonce := by
    have hplace := hdrawn.positionOf hc
    have hnext := hdrawn.position
    omega
  have hdraw : (⟨r.nonce, w.db.positionOf r⟩ : Draw) ∈ w.db.book.draws := List.mem_map_of_mem hr
  have hbehind : 1 ≤ nonce ∧ nonce ≤ r.nonce := hposition ▸ hpositions.book.behind _ hdraw
  refine ⟨proofOf w.db r, nonce, by simp only [getProof, hround], ?_, ?_, hbehind.2, ?_⟩
  · exact hdrawn.passes hc (hprovable.chains c (lookup_mem hc)) (hlifecycle.sound r hr) hconcluded
  · refine ⟨⟨c.id, c.genesisHash, c.length, c.firstNonce, c.createdAt⟩, ?_, ?_, ?_⟩
    · exact List.mem_map.2 ⟨c, (List.mem_insertionSort _).2 (lookup_mem hc), rfl⟩
    · simp [proofOf, hdrawn.chainId, hc]
    · have hnext := hdrawn.position
      simp only [proofOf, hdrawn.chainIndex, Option.getD_some]
      omega
  · rintro (hone | ⟨q, hq, hprevious⟩)
    · have hnonce : (proofOf w.db r).nonce = r.nonce := rfl
      omega
    · -- the round with the nonce before was drawn earlier, and stamps stay below later positions
      have hnonce : (proofOf w.db r).nonce = r.nonce := rfl
      have hne : q ≠ r := by
        rintro rfl
        omega
      have hrising := List.pairwise_map.1 hpositions.book.rising
      rcases one_before_other hrising hq hr hne with hbefore | hafter
      · simp only [hposition] at hbefore
        omega
      · have hlate := hpositions.book.behind _ (List.mem_map_of_mem
          (f := fun r => (⟨r.nonce, w.db.positionOf r⟩ : Draw)) hq)
        simp only at hafter hlate
        omega

end

/-- A round is opened, and opening another one fails and skips a nonce; the first is settled, and
the next one is opened and resolved. -/
def skippedNonce : List (Event Inputs Request) :=
  let length : ChainLength := ⟨smallConfig.fairnessChainLength, smallConfig.chainLength_ge⟩
  let call (i n k : ℕ) (now : Time) (c : Call) : List (Event Inputs Request) :=
    .start (length, c) :: (List.range n).map fun j => .run i (readingAt (k + j) now)
  call 0 40 0 0 (.openRoundIfDue .CRASH) ++ call 1 40 100 0 (.openRoundIfDue .CRASH) ++
  call 2 20 200 0 (.lockRound (uuidAt 9)) ++ call 3 20 300 0 (.startRound (uuidAt 9)) ++
  call 4 20 400 0 (.resolveRound (uuidAt 9)) ++ call 5 20 500 0 (.settleRound (uuidAt 9)) ++
  call 6 40 600 100000 (.openRoundIfDue .CRASH) ++
  call 7 20 700 100000 (.lockRound (uuidAt 605)) ++
  call 8 20 800 100000 (.startRound (uuidAt 605)) ++
  call 9 20 900 200000 (.resolveRound (uuidAt 605))

/-- The second round is stored under nonce 3; its proof passes on its position, which is 2. -/
theorem reachable_proofs_skippedNonce :
    ∃ r ∈ (executedAcross skippedNonce).db.rounds, r.nonce = 3 ∧ r.chainIndex = some 2 ∧
      ∃ p nonce, getProof (executedAcross skippedNonce).db r.id = .ok p ∧
        p.Passes plainCrypto r.seed nonce ∧ nonce ≤ p.nonce := by
  have hrounds : ((executedAcross skippedNonce).db.rounds.map fun r =>
      (r.nonce, r.chainIndex, r.status)) = [(1, some 1, .SETTLED), (3, some 2, .RESOLVED)] := by
    decide +kernel
  have hsecond : (3, some 2, RoundStatus.RESOLVED) ∈
      ((executedAcross skippedNonce).db.rounds.map fun r => (r.nonce, r.chainIndex, r.status)) := by
    rw [hrounds]
    simp
  obtain ⟨r, hr, heq⟩ := List.mem_map.1 hsecond
  simp only [Prod.mk.injEq] at heq
  obtain ⟨hnonce, hindex, hstatus⟩ := heq
  obtain ⟨p, nonce, hproof, hpasses, -, hle, -⟩ := reachable_proofs
    (reachesAcross_executed skippedNonce) hr (by rw [hstatus]; rfl)
  exact ⟨r, hr, hnonce, hindex, p, nonce, hproof, hpasses, hle⟩

end Tessera
