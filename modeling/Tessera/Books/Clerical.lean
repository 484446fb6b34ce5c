import Tessera.Books.Settling
import Tessera.Database.Clerical
import Tessera.Database.Parts
import Tessera.Transactions.Monitor

/-!
# The calls that leave the money alone

* `clerk` — tokens, chains, notifications and the first steps of a round's life may be written
  in every state;
* `login_verified`, `lockRound_verified`, … — the calls that write nothing else;
* `TakesRound` — these calls lock no row but a round, and that with no other row held;
* `openRoundIfDue_verified`, `tickGame_verified` — opening a round, and one tick of the engine.
-/

namespace Tessera

open Relational Transactions Transactions.Program

/-- Writes that the books allow in every state: those on the side, and a round that moves on
without being over. -/
def Write.isClerical : Write → Bool
  | .updateRound _ u => u.status == .LOCKED || u.status == .RUNNING || u.status == .RESOLVED
  | w => w.isAside

/-- A clerical write as an effect. -/
def Write.effect : Write → Effect
  | .updateRound id u => .advance id u
  | w => .aside w

/-- The effects of some clerical writes are these writes. -/
theorem rowsOf_effects (rows : List Write) : rowsOf (rows.map Write.effect) = rows := by
  induction rows with
  | nil => rfl
  | cons w rows ih =>
    have hw : w.effect.rows = [w] := by cases w <;> rfl
    change w.effect.rows ++ rowsOf (rows.map Write.effect) = w :: rows
    rw [hw, ih]
    rfl

section
variable {config : Config} {c : Call} {f f' : Standing Db LockKey Write} {s s' : Db}

/-- Clerical effects are enabled wherever they happen. -/
theorem Done.of_clerical {rows : List Write} (h : ∀ w ∈ rows, w.isClerical = true) (s : Db) :
    Done config s (rows.map Write.effect) := by
  induction rows generalizing s with
  | nil => trivial
  | cons w rows ih =>
    refine ⟨?_, ih (fun w' hw' => h w' (List.mem_cons_of_mem _ hw')) _⟩
    have hw := h w List.mem_cons_self
    cases w with
    | updateRound id u =>
      have hstatus : u.status = .LOCKED ∨ u.status = .RUNNING ∨ u.status = .RESOLVED := by
        simpa [Write.isClerical, or_assoc] using hw
      rcases hstatus with hstatus | hstatus | hstatus <;>
        exact ⟨by simp [hstatus], by simp [hstatus, RoundStatus.isOver]⟩
    | _ => exact hw

/-- Clerical writes are within the terms of every call that is not a money path. -/
theorem clerk (config : Config) (hc : c.isMoney = false) :
    Clerk database (books config) (terms config c) needs (fun w => w.isClerical = true)
      (fun w => w.isDraw = true) where
  guard _ _ _ hmoney := absurd hmoney (by simp [hc])
  needs _ := List.Subset.refl _
  tidy {s w} hw h := by
    refine Tidy.apply_other h ?_ ?_
    · rintro a rfl
      cases hw
    · rintro id amount rfl
      cases hw
  commits {s rows} _ hrows := by
    refine ⟨rows.map Write.effect, (rowsOf_effects rows).symm, .of_clerical hrows s, ?_⟩
    cases c with
    | placeBet input => cases hc
    | _ => trivial
  draws {s row} _ hrow := by
    cases row with
    | drawNonce => exact .inl rfl
    | drawEntryId => exact .inr rfl
    | _ => cases hrow

/-! ## Calls that write nothing else -/

/-- A call whose writes are clerical, from wherever its session has written nothing. -/
theorem clerical_verified (hc : c.isMoney = false) {α : Type} {p : Action α}
    (hp : p.Writes needs (fun w => w.isClerical = true) (fun w => w.isDraw = true) f.held)
    (hf : f.pending = []) :
    wp database (books config) (terms config c) p f s fun _ _ _ => True :=
  wp_mono (fun _ _ _ _ => trivial)
    (wp_of_writes (clerk config hc) hp (by rw [hf]; exact List.forall_mem_nil _))

variable {crypto : Crypto} {roundId : Uuid}

/-- Moving a round on, as long as it is not over, is clerical. -/
theorem clerical_update {u : RoundUpdate}
    (h : u.status = .LOCKED ∨ u.status = .RUNNING ∨ u.status = .RESOLVED) :
    (Write.updateRound roundId u).isClerical = true := by
  rcases h with h | h | h <;> simp [Write.isClerical, h]

/-- `login` keeps its terms: it writes tokens only. -/
theorem login_verified {dto : LoginDto} :
    wp database (books config) (terms config (.login dto)) (login config crypto dto) {} s
      fun _ _ _ => True :=
  clerical_verified rfl (login_writes (fun _ => List.Subset.refl _) fun _ => rfl) rfl

/-- `refresh` keeps its terms: it writes tokens only. -/
theorem refresh_verified {rawToken : String} :
    wp database (books config) (terms config (.refresh rawToken))
      (refresh config crypto rawToken) {} s fun _ _ _ => True :=
  clerical_verified rfl
    (refresh_writes (fun _ => List.Subset.refl _) (fun _ => rfl) fun _ _ => rfl) rfl

/-- `logout` keeps its terms: it writes tokens only. -/
theorem logout_verified {rawToken : String} :
    wp database (books config) (terms config (.logout rawToken)) (logout crypto rawToken) {} s
      fun _ _ _ => True :=
  clerical_verified rfl (logout_writes (fun _ => List.Subset.refl _) fun _ _ => rfl) rfl

/-- Locking a round keeps the terms of any call that moves no money. -/
theorem lockRound_verified (hc : c.isMoney = false) (hf : f.pending = []) :
    wp database (books config) (terms config c) (lockRound roundId) f s fun _ _ _ => True :=
  clerical_verified hc
    (lockRound_writes (fun _ => List.Subset.refl _) (fun _ => rfl) fun _ => clerical_update) hf

/-- So does starting it. -/
theorem startRound_verified (hc : c.isMoney = false) (hf : f.pending = []) :
    wp database (books config) (terms config c) (startRound roundId) f s fun _ _ _ => True :=
  clerical_verified hc
    (startRound_writes (fun _ => List.Subset.refl _) (fun _ => rfl) fun _ => clerical_update) hf

/-- So does resolving it. -/
theorem resolveRound_verified (hc : c.isMoney = false) (hf : f.pending = []) :
    wp database (books config) (terms config c) (resolveRound roundId) f s fun _ _ _ => True :=
  clerical_verified hc
    (resolveRound_writes (fun _ => List.Subset.refl _) (fun _ => rfl) fun _ => clerical_update) hf

/-! ## Opening a round -/

/-- The id of the round that is being inserted is not taken, and nobody else can take it. -/
def Fresh (config : Config) (id : Uuid) (f f' : Standing Db LockKey Write) (s' : Db) : Prop :=
  Always (books config) f'.held s' fun s'' => (f.view database s'').round id = none

/-- A new id stays new: whoever else inserts it would need its lock. -/
theorem Fresh.later {id : Uuid} {f f' f'' : Standing Db LockKey Write} {s' s'' : Db}
    (h : Fresh config id f f' s') (hl : Later (books config) f' s' f'' s'') :
    Fresh config id f f'' s'' :=
  (h.wait (books_regular config) hl.rely).more hl.kept

/-- `INSERT INTO rounds`, by a call that is not a money path. -/
theorem wp_insertRound (hc : c.isMoney = false) (hinv : Consistent config s) {r : Round}
    {Q : Post Db LockKey Write AppError Unit}
    (hok : ∀ f' s', f'.pending = f.pending ++ [.insertRound r] → Fresh config r.id f f' s' →
      Q (.ok ()) f' s')
    (herror : ∀ e f' s', Q (.error e) f' s') :
    wp database (books config) (terms config c) (insertRound r) f s Q := by
  have hR := books_regime config
  have hguard : ∀ f k s, (terms config c).guard f k s := (clerk config hc).guard
  have P₀ : Progress (books config) f s [] [] anyReading f s := .refl hR.regular hinv _
  refine wp_bind.2 (wp_assertChecks (fun _ => onValue_ok ?_) fun _ _ => herror _ _ _)
  refine wp_bind.2 (wp_claim hR P₀ (by simp) (fun _ _ => hguard _ _ _) (fun f₁ s₁ h₁ P₁ hid =>
    onValue_ok ?_) fun _ _ _ _ _ _ => herror _ _ _)
  have hfresh : Fresh config r.id f f₁ s₁ := fun s'' h'' => by
    have hsame := hR.same_later ⟨h'', List.Subset.refl _⟩ (P₁.got List.mem_cons_self) f
    have hnone : (f.view database s₁).round r.id = none := isSome_false hid
    exact hsame.1.trans hnone
  refine wp_bind.2 (wp_claim hR P₁ (by simp) (fun _ _ => hguard _ _ _) (fun f₂ s₂ h₂ P₂ _ =>
    onValue_ok ?_) fun _ _ _ _ _ _ => herror _ _ _)
  cases hchain : r.chainId with
  | none =>
    refine wp_bind.2 (wp_claim hR P₂ (by simp) (fun _ _ => hguard _ _ _) (fun f₃ s₃ h₃ P₃ _ =>
      onValue_ok ?_) fun _ _ _ _ _ _ => herror _ _ _)
    refine wp_bind.2 (wp_putOther hR P₃ ?_ (by simp) (by simp) fun f₄ s₄ h₄ P₄ => onValue_ok ?_)
    · have hgot := P₃.got
      simp only [List.cons_subset] at hgot
      simp [needs, hchain, hgot]
    · exact hok f₄ s₄ P₄.pending (hfresh.later ((h₂.trans hR.regular h₃).trans hR.regular h₄))
  | some chainId =>
    refine wp_bind.2 (wp_claim hR P₂ (by simp) (fun _ _ => hguard _ _ _) (fun f₃ s₃ h₃ P₃ _ =>
      onValue_ok ?_) fun _ _ _ _ _ _ => herror _ _ _)
    refine wp_bind.2 (wp_claim hR P₃ (by simp) (fun _ _ => hguard _ _ _) (fun f₄ s₄ h₄ P₄ _ =>
      onValue_ok ?_) fun _ _ _ _ _ _ => herror _ _ _)
    refine wp_bind.2 (wp_putOther hR P₄ ?_ (by simp) (by simp) fun f₅ s₅ h₅ P₅ => onValue_ok ?_)
    · have hgot := P₄.got
      simp only [List.cons_subset] at hgot
      simp [needs, hchain, hgot]
    · refine wp_assertReference hR P₅ (fun f₆ s₆ h₆ P₆ _ => ?_) fun _ _ _ _ _ => herror _ _ _
      exact hok f₆ s₆ P₆.pending (hfresh.later ((((h₂.trans hR.regular h₃).trans hR.regular
        h₄).trans hR.regular h₅).trans hR.regular h₆))

/-- Nothing has been written but what the books allow in every state. -/
def Clean (f : Standing Db LockKey Write) : Prop := ∀ w ∈ f.pending, w.isClerical = true

/-- Nothing is asked of the effects of a call that moves no money. -/
theorem does_of_not_money (hc : c.isMoney = false) (es : List Effect) : c.Does es := by
  cases c with
  | placeBet input => cases hc
  | _ => trivial

/-- A round with a new id may be committed. -/
theorem commits_launch (hc : c.isMoney = false) (hf : Clean f) {r : Round}
    (hpending : f'.pending = f.pending ++ [.insertRound r])
    (hfresh : (f.view database s).round r.id = none) :
    (terms config c).commits s f'.pending := by
  refine ⟨f.pending.map Write.effect ++ [.launch r], ?_, (Done.of_clerical hf s).snoc ?_,
    does_of_not_money hc _⟩
  · rw [hpending, rowsOf_snoc, rowsOf_effects]
    rfl
  · rw [rowsOf_effects]
    exact hfresh

/-- Opening a round that has been drawn inserts it and tells of it. -/
theorem wp_openDrawnRound (hc : c.isMoney = false) (hf : Clean f)
    {game : GameKind} {outcome : RoundOutcome} {pocket : Option ℤ} :
    wp database (books config) (terms config c) (openDrawnRound config game outcome pocket) f s
      fun _ _ _ => True := by
  refine wp_bind.2 (wp_transaction (wp_bind.2 (wp_read fun x => onValue_ok (wp_bind.2 ?_))))
  refine wp_draw (fun _ _ => .inl rfl) fun s₁ h₁ => onValue_ok (wp_bind.2 ?_)
  have hinv₁ : Consistent config (s₁.apply .drawNonce) :=
    (terms_lawful config c).draws_inv h₁.inv (.inl rfl)
  refine wp_insertRound hc hinv₁ (fun f₂ s₂ hpending hfresh => onValue_ok (wp_pure ?_))
    fun _ _ _ _ _ => trivial
  refine fun s₃ h₃ _ => ⟨fun _ => ⟨commits_launch hc hf hpending (hfresh s₃ h₃), ?_⟩,
    fun _ _ => trivial⟩
  refine onValue_ok (wp_bind.2 (wp_mono (fun r f s _ => ?_) (clerical_verified hc
    (Writes.transaction (publish_writes (fun _ => List.Subset.refl _) rfl)) rfl)))
  cases r <;> trivial

/-- Opening a round draws it first, from a chain that may have to be inserted. -/
theorem wp_openRound (hc : c.isMoney = false) (hf : Clean f) {game : GameKind} :
    wp database (books config) (terms config c) (openRound config crypto game) f s
      fun _ _ _ => True := by
  refine wp_bind.2 (wp_select fun s₁ _ => onValue_ok (wp_bind.2 (wp_mono (fun r f₂ s₂ hf₂ => ?_)
    (wp_of_writes (clerk config hc)
      (drawOutcome_writes (fun _ => List.Subset.refl _) fun _ => rfl) hf))))
  cases r with
  | error e => trivial
  | ok outcome =>
    refine wp_bind.2 (wp_check ?_)
    generalize (if game = .ROULETTE then _ else _ : Except AppError (Option ℤ)) = pocket
    cases pocket with
    | error e => trivial
    | ok pocket =>
      refine wp_handle.2 (wp_mono (fun r f₃ s₃ _ => ?_) (wp_openDrawnRound hc hf₂))
      cases r with
      | ok id => trivial
      | error e =>
        dsimp only
        split <;> trivial

/-- `openRoundIfDue` keeps the discipline of the books. -/
theorem openRoundIfDue_verified (hc : c.isMoney = false) (hf : Clean f) {game : GameKind} :
    wp database (books config) (terms config c) (openRoundIfDue config crypto game) f s
      fun _ _ _ => True := by
  refine wp_bind.2 (wp_select fun s₁ _ => onValue_ok ?_)
  have hf₁ : Clean (f.saw (f.view database s₁)) := hf
  cases (lastSettled game (f.view database s₁)).bind Round.settledAt with
  | none => exact wp_openRound hc hf₁
  | some settledAt =>
    refine wp_bind.2 (wp_read fun x => onValue_ok ?_)
    split
    · trivial
    · exact wp_openRound hc hf₁

/-! ## The rows they lock -/

/-- A round may be locked as long as no row is held, and what is not a row whatever is held. -/
def roundAlone (held : List (LockKey × LockMode)) (k : LockKey) : Prop :=
  k.isRow = true → (∃ id, k = .round id) ∧ ∀ h ∈ held, h.1.isRow = false

/-- The round is the first row to be locked. -/
theorem roundAlone_round {id : Uuid} : roundAlone [] (.round id) :=
  fun _ => ⟨⟨id, rfl⟩, fun _ hh => absurd hh List.not_mem_nil⟩

/-- A lock that is not on a row does not count. -/
theorem roundAlone_other {held : List (LockKey × LockMode)} {k : LockKey} (hk : k.isRow = false) :
    roundAlone held k :=
  fun hrow => absurd hrow (by simp [hk])

/-- The monitor that allows no other lock. -/
abbrev roundLocks : Monitor LockKey Write (List (LockKey × LockMode)) := lockMonitor roundAlone

/-- A part of a transaction that fails for no lack of funds, if it fails. -/
def BenignEnd {α : Type} (r : Except AppError α) : Prop := ∀ e, r = .error e → Benign e

/-- A result is not an error about funds. -/
theorem BenignEnd.ok {α : Type} {a : α} : BenignEnd (.ok a) := fun _ he => by cases he

theorem BenignEnd.error {α : Type} {e : AppError} (h : Benign e) :
    BenignEnd (.error e : Except AppError α) :=
  fun _ he => by cases he; exact h

/-- Nor does it become one when the result is changed. -/
theorem BenignEnd.map {α β : Type} {g : α → β} {r : Except AppError α} (h : BenignEnd r) :
    BenignEnd (r.map g) := by
  cases r with
  | ok a => exact .ok
  | error e => exact .error (h e rfl)

/-- From where no lock is held, a program locks no row but a round, and that with no other row
held; in the end it holds nothing, and it fails for no lack of funds. -/
def TakesRound {α : Type} (p : Action α) : Prop :=
  p.Passes roundLocks Benign [] fun r held => held = [] ∧ BenignEnd r

namespace TakesRound
variable {α β : Type}

/-- A program that returns at once. -/
theorem pure {a : α} : TakesRound (pure a) := ⟨rfl, .ok⟩

/-- A program that fails at once. -/
theorem throw {e : AppError} (h : Benign e) : TakesRound (throw e : Action α) := ⟨rfl, .error h⟩

/-- Two programs one after the other, each of which gives its locks back. -/
theorem bind {p : Action α} {k : α → Action β} (hp : TakesRound p) (hk : ∀ a, TakesRound (k a)) :
    TakesRound (p >>= k) := by
  refine Passes.bind (Passes.mono (fun r held hr => ?_) hp)
  obtain ⟨rfl, hbenign⟩ := hr
  cases r with
  | ok a => exact hk a
  | error e => exact ⟨rfl, .error (hbenign e rfl)⟩

/-- A read before such a program. -/
theorem bind_select {view : Db → α} {k : α → Action β} (hk : ∀ a, TakesRound (k a)) :
    TakesRound (select view >>= k) :=
  bind (fun _ => ⟨rfl, .ok⟩) hk

/-- The clock or an id before such a program. -/
theorem bind_read {k : Inputs → Action β} (hk : ∀ x, TakesRound (k x)) :
    TakesRound (read >>= k) :=
  bind (fun _ => ⟨rfl, .ok⟩) hk

/-- A computation that may fail. -/
theorem check {r : Except AppError α} (h : BenignEnd r) : TakesRound (check r) := ⟨rfl, h⟩

/-- A handler takes over after a rollback, which gives the locks back. -/
theorem tryCatch {p : Action α} {k : AppError → Action α} (hp : TakesRound p)
    (hk : ∀ e, Benign e → TakesRound (k e)) : TakesRound (MonadExcept.tryCatch p k) := by
  refine Passes.handle (Passes.mono (fun r held hr => ?_) hp)
  obtain ⟨rfl, hbenign⟩ := hr
  cases r with
  | ok a => exact ⟨rfl, .ok⟩
  | error e => exact hk e (hbenign e rfl)

/-- A transaction gives its locks back. -/
theorem transaction {body : Action α}
    (h : body.Passes roundLocks Benign [] fun r _ => BenignEnd r) : TakesRound (transaction body) :=
  Passes.transaction (h.mono fun _ _ hr => ⟨trivial, ⟨rfl, hr⟩, fun _ he => ⟨rfl, .error he⟩⟩)

end TakesRound

section
variable {held : List (LockKey × LockMode)}

/-- A unique constraint locks a key, and no row. -/
theorem claim_locks {key : LockKey} {taken : Db → Bool} {constraint : String} {α : Type}
    {k : Unit → Action α} (hkey : roundAlone held key)
    (hk : (k ()).Passes roundLocks Benign ((key, .exclusive) :: held) fun r _ => BenignEnd r) :
    (claim key taken constraint >>= k).Passes roundLocks Benign held fun r _ => BenignEnd r :=
  Passes.bind ⟨hkey, fun _ => Passes.ensure hk (BenignEnd.error ⟨by simp, by simp⟩)⟩

/-- A round is inserted under the lock of its id, and what is waited for then are no rows. -/
theorem insertRound_locks {r : Round} :
    (insertRound r).Passes roundLocks Benign [] fun r _ => BenignEnd r := by
  unfold insertRound assertChecks
  cases r.violated with
  | some constraint => exact BenignEnd.error ⟨by simp, by simp⟩
  | none =>
    refine claim_locks roundAlone_round (claim_locks (roundAlone_other rfl) ?_)
    cases r.chainId with
    | none => exact claim_locks (roundAlone_other rfl) ⟨trivial, .ok⟩
    | some chainId =>
      refine claim_locks (roundAlone_other rfl) (claim_locks (roundAlone_other rfl)
        ⟨trivial, fun s => ?_⟩)
      exact Passes.ensure .ok (.error ⟨by simp, by simp⟩)

/-- Inserting a chain locks keys only. -/
theorem insertChain_locks {chain : FairnessChain} :
    (insertChain chain).Passes roundLocks Benign [] fun r _ => BenignEnd r := by
  refine Passes.bind (Passes.ensure ?_ (BenignEnd.error ⟨by simp, by simp⟩))
  exact claim_locks (roundAlone_other rfl) (claim_locks (roundAlone_other rfl) ⟨trivial, .ok⟩)

/-- A step of a round's life locks the round. -/
theorem updateRoundWhere_locks {from_ : RoundStatus → Bool} {u : RoundUpdate} {α : Type}
    {k : ℕ → Action α}
    (hk : ∀ n held, (k n).Passes roundLocks Benign held fun r _ => BenignEnd r) :
    (updateRoundWhere roundId from_ u >>= k).Passes roundLocks Benign []
      fun r _ => BenignEnd r := by
  refine Passes.bind (Passes.bind (Passes.selectForLock (LockKey.round roundId)
    (fun s row hrow => ?_) roundAlone_round (hk 0 []) fun found => ?_))
  · obtain ⟨hfound, -⟩ := Option.filter_eq_some_iff.1 hrow
    exact congrArg LockKey.round (lookup_key hfound)
  · cases found with
    | none => exact hk 0 _
    | some row =>
      refine Passes.bind ?_
      unfold assertChecks
      cases (u.row row).violated with
      | none => exact ⟨trivial, hk 1 _⟩
      | some constraint => exact BenignEnd.error ⟨by simp, by simp⟩

/-- A notification takes no lock. -/
theorem publishIfChanged_locks {changed : ℕ} :
    (publishIfChanged roundId changed).Passes roundLocks Benign held fun r _ => BenignEnd r := by
  unfold publishIfChanged
  split
  · exact ⟨trivial, .ok⟩
  · exact BenignEnd.ok

end

/-- Locking a round takes the row of the round and no other. -/
theorem lockRound_takes : TakesRound (lockRound roundId) :=
  .transaction (updateRoundWhere_locks fun _ _ => publishIfChanged_locks)

/-- So does starting it. -/
theorem startRound_takes : TakesRound (startRound roundId) :=
  .transaction fun _ => updateRoundWhere_locks fun _ _ => publishIfChanged_locks

/-- So does resolving it. -/
theorem resolveRound_takes : TakesRound (resolveRound roundId) := by
  refine .bind_select fun found => ?_
  cases found with
  | none => exact .throw ⟨by simp, by simp⟩
  | some round =>
    exact .transaction fun _ => updateRoundWhere_locks fun _ _ => publishIfChanged_locks

/-- An error of the chain is not about funds. -/
theorem deriveChainSeed_benign {terminalSeed : String} {length index : ℤ} :
    BenignEnd (deriveChainSeed crypto.sha256 terminalSeed length index) := by
  unfold deriveChainSeed
  split
  · exact .error ⟨by simp, by simp⟩
  · exact .ok

/-- An error of the crash point is not about funds. -/
theorem crashPointFromHash_benign {hashHex : String} : BenignEnd (crashPointFromHash hashHex) := by
  unfold crashPointFromHash
  dsimp only
  split
  · exact .error ⟨by simp, by simp⟩
  · split
    · exact .ok
    · split <;> exact .ok

/-- An error of the outcome is not about funds. -/
theorem verifyOutcome_benign {seed : String} {nonce : ℕ} :
    BenignEnd (verifyOutcome crypto seed nonce) := by
  unfold verifyOutcome
  cases h : crashPointFromHash (crypto.hmacSha256 seed (toString nonce)) with
  | ok crashPointBp => exact .ok
  | error e => exact .error (crashPointFromHash_benign e h)

/-- An error of the pocket is not about funds. -/
theorem roulettePocketFromHash_benign {hashHex : String} :
    BenignEnd (roulettePocketFromHash hashHex) := by
  unfold roulettePocketFromHash
  dsimp only
  split
  · exact .error ⟨by simp, by simp⟩
  · exact .ok

/-- Drawing an outcome reads the chain, or inserts one. -/
theorem drawOutcome_takes {nonce : ℕ} : TakesRound (drawOutcome config crypto nonce) := by
  refine .bind (.bind_select fun found => ?_) fun chain => .bind_select fun row => ?_
  · cases found with
    | some chain => exact .pure
    | none =>
      refine .bind_read fun x => .bind (.check deriveChainSeed_benign) fun firstSeed => ?_
      exact .bind (.transaction insertChain_locks) fun _ => .pure
  · cases row with
    | none => exact .throw ⟨by simp, by simp⟩
    | some row =>
      exact .bind (.check deriveChainSeed_benign) fun seed =>
        .bind (.check verifyOutcome_benign) fun _ => .pure

/-- Opening a round takes the keys of the chain and of the round. -/
theorem openRound_takes {game : GameKind} : TakesRound (openRound config crypto game) := by
  refine .bind_select fun nonce => .bind drawOutcome_takes fun outcome =>
    .bind (.check ?_) fun pocket => .tryCatch (.bind (.transaction fun x => ⟨trivial, fun s => ?_⟩)
      fun id => ?_)
      fun e he => ?_
  · split
    · exact roulettePocketFromHash_benign.map
    · exact .ok
  · refine Passes.bind (insertRound_locks.mono fun r held hr => ?_)
    cases r with
    | ok u => exact BenignEnd.ok
    | error e => exact .error (hr e rfl)
  · exact .bind (.transaction ⟨trivial, .ok⟩) fun _ => .pure
  · split
    · exact .pure
    · exact .throw he

/-- Opening a round locks no row but the new round. -/
theorem openRoundIfDue_takes {game : GameKind} :
    TakesRound (openRoundIfDue config crypto game) := by
  refine .bind_select fun last => ?_
  cases last.bind Round.settledAt with
  | none => exact openRound_takes
  | some settledAt =>
    refine .bind_read fun x => ?_
    split
    · exact .pure
    · exact openRound_takes

/-! ## One tick -/

section
variable {game : GameKind}

/-- What a call may do that closes a round, a tick of the engine may do. -/
theorem wp_tickCloses (hmoney : c.isMoney = true) (hplace : ∀ input, c ≠ .placeBet input)
    (hcash : ∀ input, c ≠ .cashOut input)
    (hpays : ∀ s userId, c.pays s userId → (Call.tickGame game).pays s userId)
    {p : Action Unit} {Q : Post Db LockKey Write AppError Unit}
    (hp : wp database (books config) (terms config c) p f s Q) :
    wp database (books config) (terms config (.tickGame game)) p f s Q := by
  refine wp_terms (T := terms config c) ?_ ?_ ?_ (fun _ _ _ _ => trivial) hp
  · rintro s rows ⟨es, hrows, hdone, -⟩
    exact ⟨es, hrows, hdone, trivial⟩
  · exact fun _ _ h => h
  · intro f k s h _ hrow
    have hplace' : ∀ input, Call.tickGame game ≠ .placeBet input := by simp
    exact (h hmoney hrow).imp_right
      (Waits.weaken hplace hcash hplace' (fun _ _ => trivial) (hpays s))

/-- What a call may do that leaves the money alone, a tick of the engine may do. -/
theorem wp_tickTakes (hf : f.held = []) {p : Action Unit}
    (hp : wp database (books config) (terms config c) p f s fun _ _ _ => True)
    (htakes : TakesRound p) :
    wp database (books config) (terms config (.tickGame game)) p f s
      fun r _ _ => NotTrigger r := by
  have hlocks : p.Passes roundLocks Benign f.held fun r held => held = [] ∧ BenignEnd r := by
    rw [hf]
    exact htakes
  refine wp_mono ?_ (wp_locks (T := terms config c) (fun _ _ _ => deferred_benign) ?_ ?_ ?_
    (fun _ _ _ _ => trivial) hp hlocks)
  · rintro r f s ⟨-, -, hbenign⟩ a kind n he
    exact (hbenign _ he).1 a kind n rfl
  · rintro s rows ⟨es, hrows, hdone, -⟩
    exact ⟨es, hrows, hdone, trivial⟩
  · exact fun _ _ h => h
  · rintro f ⟨k, m⟩ s - hallowed - hrow
    obtain ⟨⟨id, rfl⟩, hrows⟩ := hallowed hrow
    exact .inr (.round fun h hh hrow' => absurd (hrows h hh) (by simp [hrow']))

/-- A tick waits for rows as the calls do that it makes, and the trigger rejects none of them. -/
theorem tickGame_verified :
    wp database (books config) (terms config (.tickGame game)) (tickGame config crypto game) {} s
      fun r _ _ => NotTrigger r := by
  refine wp_bind.2 (wp_select fun s₁ h₁ => onValue_ok ?_)
  have hidle : Idle (({} : Standing Db LockKey Write).saw s₁) := ⟨rfl, rfl⟩
  cases liveRoundOf game (Standing.view database {} s₁) with
  | none =>
    have hclean : Clean (({} : Standing Db LockKey Write).saw s₁) := fun w hw => by cases hw
    have hopen : (Call.openRoundIfDue game).isMoney = false := rfl
    refine wp_tickTakes rfl (wp_bind.2 (wp_mono (fun r _ _ _ => ?_)
      (openRoundIfDue_verified hopen hclean))) (.bind openRoundIfDue_takes fun _ => .pure)
    cases r <;> trivial
  | some live =>
    refine wp_bind.2 (wp_read fun x => onValue_ok ?_)
    have hquiet : ∀ {f s}, wp database (books config) (terms config (.tickGame game))
        (pure () : Action Unit) f s fun r _ _ => NotTrigger r := by
      simp [NotTrigger, wp_pure]
    cases live.status with
    | OPEN =>
      dsimp only
      split
      · exact wp_tickTakes (c := .lockRound live.id) rfl (lockRound_verified rfl rfl)
          lockRound_takes
      · exact hquiet
    | LOCKED =>
      exact wp_tickTakes (c := .startRound live.id) rfl (startRound_verified rfl rfl)
        startRound_takes
    | RUNNING =>
      dsimp only
      cases live.startedAt with
      | none => exact hquiet
      | some startedAt =>
        dsimp only
        split
        · exact wp_tickCloses (c := .voidRound live.id) rfl (by simp) (by simp)
            (fun _ _ h => ⟨live.id, .inr h⟩) (voidRound_verified h₁.inv hidle)
        · split
          · exact wp_tickTakes (c := .resolveRound live.id) rfl (resolveRound_verified rfl rfl)
              resolveRound_takes
          · exact hquiet
    | RESOLVED =>
      exact wp_tickCloses (c := .settleRound live.id) rfl (by simp) (by simp)
        (fun _ _ h => ⟨live.id, .inl h⟩) (settleRound_verified h₁.inv hidle)
    | SETTLED | VOIDED => exact hquiet

end

end

end Tessera
