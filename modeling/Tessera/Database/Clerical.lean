import Tessera.Transactions.Writes
import Tessera.Auth.Service
import Tessera.Rounds.Engine
import Tessera.Database.Parts

/-!
# What the services write

The statements and the services whose writes are of one kind whatever they read.

* `insertToken_writes`, … — the statements;
* `login_writes`, `refresh_writes`, `logout_writes`, `createChain_writes` — the services that
  write tokens and chains;
* `updateRoundWhere_writes` — the steps of a round's life;
* `openRoundIfDue_writes` — the opening of a round;
* `tickGame_writes` — the tables that a tick writes.
-/

namespace Tessera

open Relational Transactions Transactions.Program

section
variable {N : Write → List (LockKey × LockMode)} {P Q : Write → Prop} {α : Type}
variable {held : List (LockKey × LockMode)}

/-! ## Statements -/

/-- A check keeps the locks. -/
theorem assertChecks_writes {violated : Option String} {k : Unit → Action α}
    (hk : (k ()).Writes N P Q held) : (assertChecks violated >>= k).Writes N P Q held := by
  cases violated with
  | none => exact hk
  | some constraint => trivial

/-- A foreign key that is checked writes nothing. -/
theorem assertReference_writes {there : Db → Bool} {constraint : String} :
    (assertReference there constraint).Writes N P Q held :=
  fun _ => Writes.ensure

/-- What follows a claim has its lock. -/
theorem claim_writes {key : LockKey} {taken : Db → Bool} {constraint : String}
    {k : Unit → Action α} (hk : (k ()).Writes N P Q ((key, .exclusive) :: held)) :
    (claim key taken constraint >>= k).Writes N P Q held := by
  intro s
  change ((ensure (!taken s) (.uniqueViolation constraint) : Action Unit) >>= k).Writes N P Q
    ((key, .exclusive) :: held)
  unfold ensure
  split
  · exact hk
  · trivial

/-- An `INSERT` of a token holds the locks of its keys when it writes. -/
theorem insertToken_writes (hN : ∀ w, N w ⊆ needs w) {t : RefreshToken}
    (hP : P (.insertToken t)) : (insertToken t).Writes N P Q held := by
  refine claim_writes (claim_writes (Writes.bind (Writes.put hP ?_) fun _ =>
    assertReference_writes))
  refine List.Subset.trans (hN _) ?_
  simp [needs]

/-- An `INSERT` of a chain holds the locks of its keys when it writes. -/
theorem insertChain_writes (hN : ∀ w, N w ⊆ needs w) {c : FairnessChain}
    (hP : P (.insertChain c)) : (insertChain c).Writes N P Q held := by
  refine Writes.bind Writes.ensure fun _ => claim_writes (claim_writes (Writes.put hP ?_))
  refine List.Subset.trans (hN _) ?_
  simp [needs]

/-- An `INSERT` of a round holds the locks of its keys when it writes. -/
theorem insertRound_writes (hN : ∀ w, N w ⊆ needs w) {r : Round} (hP : P (.insertRound r)) :
    (insertRound r).Writes N P Q held := by
  refine assertChecks_writes (claim_writes (claim_writes ?_))
  cases hchain : r.chainId with
  | none =>
    refine claim_writes (Writes.bind (Writes.put hP ?_) fun _ => trivial)
    refine List.Subset.trans (hN _) ?_
    simp [needs, hchain]
  | some chainId =>
    refine claim_writes (claim_writes (Writes.bind (Writes.put hP ?_) fun _ =>
      assertReference_writes))
    refine List.Subset.trans (hN _) ?_
    simp [needs, hchain]

/-- A notification needs no lock. -/
theorem publish_writes (hN : ∀ w, N w ⊆ needs w) {e : RoundDomainEvent} (hP : P (.notify e)) :
    (publish e).Writes N P Q held :=
  Writes.put hP (List.Subset.trans (hN _) (List.nil_subset _))

/-! ## Services -/

section
variable {config : Config} {crypto : Crypto}

/-- Issuing a token inserts it, and writes nothing else. -/
theorem issueIntoFamily_writes (hN : ∀ w, N w ⊆ needs w) (hinsert : ∀ t, P (.insertToken t))
    {userId familyId : Uuid} :
    (issueIntoFamily config crypto userId familyId).Writes N P Q held :=
  fun _ _ => Writes.bind (insertToken_writes hN (hinsert _)) fun _ => trivial

/-- `login` inserts one token at most. -/
theorem login_writes (hN : ∀ w, N w ⊆ needs w) (hinsert : ∀ t, P (.insertToken t))
    {dto : LoginDto} : (login config crypto dto).Writes N P Q held := by
  refine Writes.bind (fun _ => trivial) fun found => ?_
  cases found with
  | none => trivial
  | some user =>
    dsimp only
    split
    · trivial
    · split
      · trivial
      · refine Writes.transaction (Writes.bind (fun _ => ?_) fun _ _ => trivial)
        exact issueIntoFamily_writes hN hinsert

/-- Revoking a family updates tokens, each under its own lock. -/
theorem revokeFamily_writes (hN : ∀ w, N w ⊆ needs w) (hupdate : ∀ id u, P (.updateToken id u))
    {familyId : Uuid} : (revokeFamily familyId).Writes N P Q held := by
  refine fun x s => Writes.updateEach fun row s now hnow => ⟨hupdate _ _, ?_⟩
  obtain ⟨hfound, -⟩ := Option.filter_eq_some_iff.1 hnow
  have hid : now.id = row.id := lookup_key hfound
  rw [← hid]
  exact hN _

/-- A rotation updates the spent token and inserts its successor. -/
theorem rotateToken_writes (hN : ∀ w, N w ⊆ needs w) (hinsert : ∀ t, P (.insertToken t))
    (hupdate : ∀ id u, P (.updateToken id u)) {stored : RefreshToken} :
    (rotateToken config crypto stored).Writes N P Q held := by
  refine fun x => Writes.bind (Writes.updateRow (.token stored.id)
    (fun s row hrow => congrArg LockKey.token (lookup_key hrow)) fun s row hrow =>
      ⟨hupdate _ _, ?_⟩) fun _ => Writes.bind (fun _ => trivial) fun found => ?_
  · have hid : row.id = stored.id := lookup_key hrow
    rw [← hid]
    exact hN _
  · cases found with
    | none => trivial
    | some user =>
      dsimp only
      split
      · trivial
      · refine Writes.bind (issueIntoFamily_writes hN hinsert) fun _ => ?_
        exact Writes.bind (fun _ => trivial) fun _ => trivial

/-- `refresh` rotates, or revokes the family, or writes nothing. -/
theorem refresh_writes (hN : ∀ w, N w ⊆ needs w) (hinsert : ∀ t, P (.insertToken t))
    (hupdate : ∀ id u, P (.updateToken id u)) {rawToken : String} :
    (refresh config crypto rawToken).Writes N P Q held := by
  refine Writes.bind_read fun x => ?_
  split
  · trivial
  · refine Writes.bind (Writes.transaction (Writes.bind Writes.selectForLock fun found => ?_))
      fun outcome => ?_
    · cases found with
      | none => trivial
      | some stored =>
        dsimp only
        split
        · trivial
        · refine Writes.bind_read fun y => ?_
          split
          · trivial
          · split
            · exact Writes.bind (revokeFamily_writes hN hupdate) fun _ => trivial
            · exact rotateToken_writes hN hinsert hupdate
    · cases outcome <;> trivial

/-- `logout` revokes a family at most. -/
theorem logout_writes (hN : ∀ w, N w ⊆ needs w) (hupdate : ∀ id u, P (.updateToken id u))
    {rawToken : String} : (logout crypto rawToken).Writes N P Q held := by
  refine Writes.bind (fun _ => trivial) fun found => ?_
  cases found with
  | none => trivial
  | some stored => exact Writes.transaction (revokeFamily_writes hN hupdate)

/-- A step of a round's life. -/
theorem updateRoundWhere_writes (hN : ∀ w, N w ⊆ needs w) {roundId : Uuid}
    {from_ : RoundStatus → Bool} {u : RoundUpdate} (hP : P (.updateRound roundId u)) :
    (updateRoundWhere roundId from_ u).Writes N P Q held := by
  refine Writes.bind_selectForLock (.round roundId) (fun s row hrow => ?_) trivial
    fun s row _ => assertChecks_writes (Writes.bind (Writes.put hP (hN _)) fun _ => trivial)
  obtain ⟨hfound, -⟩ := Option.filter_eq_some_iff.1 hrow
  exact congrArg LockKey.round (lookup_key hfound)

/-- The round is announced if a row was changed. -/
theorem publishIfChanged_writes (hN : ∀ w, N w ⊆ needs w) (hnotify : ∀ id, P (.notify (.roundState id)))
    {roundId : Uuid} {changed : ℕ} : (publishIfChanged roundId changed).Writes N P Q held := by
  unfold publishIfChanged
  split
  · exact publish_writes hN (hnotify _)
  · trivial

section
variable {roundId : Uuid} (hN : ∀ w, N w ⊆ needs w) (hnotify : ∀ id, P (.notify (.roundState id)))
  (hupdate : ∀ u : RoundUpdate, u.status = .LOCKED ∨ u.status = .RUNNING ∨ u.status = .RESOLVED →
    P (.updateRound roundId u))
include hN hnotify hupdate

/-- `lockRound` updates its own round and announces it. -/
theorem lockRound_writes : (lockRound roundId).Writes N P Q held :=
  Writes.transaction (Writes.bind (updateRoundWhere_writes hN (hupdate _ (.inl rfl)))
    fun _ => publishIfChanged_writes hN hnotify)

/-- `startRound` updates its own round and announces it. -/
theorem startRound_writes : (startRound roundId).Writes N P Q held :=
  Writes.transaction (Writes.bind_read fun _ =>
    Writes.bind (updateRoundWhere_writes hN (hupdate _ (.inr (.inl rfl))))
      fun _ => publishIfChanged_writes hN hnotify)

/-- `resolveRound` updates its own round and announces it. -/
theorem resolveRound_writes : (resolveRound roundId).Writes N P Q held := by
  refine Writes.bind (fun _ => trivial) fun found => ?_
  cases found with
  | none => trivial
  | some round =>
    exact Writes.transaction (Writes.bind_read fun _ =>
      Writes.bind (updateRoundWhere_writes hN (hupdate _ (.inr (.inr rfl))))
        fun _ => publishIfChanged_writes hN hnotify)

end

/-- The outcome of a round is drawn from a chain that may have to be made first. -/
theorem drawOutcome_writes (hN : ∀ w, N w ⊆ needs w) (hchain : ∀ c, P (.insertChain c))
    {nonce : ℕ} : (drawOutcome config crypto nonce).Writes N P Q held := by
  refine Writes.bind (Writes.bind (fun _ => trivial) fun found => ?_) fun chain =>
    Writes.bind (fun _ => trivial) fun row => ?_
  · cases found with
    | some chain => trivial
    | none =>
      refine Writes.bind_read fun x => Writes.bind trivial fun firstSeed => ?_
      exact Writes.bind (Writes.transaction (insertChain_writes hN (hchain _))) fun _ => trivial
  · cases row with
    | none => trivial
    | some row => exact Writes.bind trivial fun seed => Writes.bind trivial fun _ => trivial

section
variable {game : GameKind} (hN : ∀ w, N w ⊆ needs w) (hchain : ∀ c, P (.insertChain c))
  (hinsert : ∀ r, P (.insertRound r)) (hnotify : ∀ id, P (.notify (.roundState id))) (hdraw : Q .drawNonce)
include hN hchain hinsert hnotify hdraw

/-- Opening inserts a chain at most, a round, and its announcement. -/
theorem openRound_writes : (openRound config crypto game).Writes N P Q held := by
  refine Writes.bind (fun _ => trivial) fun nonce =>
    Writes.bind (drawOutcome_writes hN hchain) fun outcome => Writes.bind trivial fun pocket =>
      Writes.tryCatch ?_ fun e => ?_
  · refine Writes.bind (Writes.transaction (Writes.bind_read fun x => ?_)) fun id =>
      Writes.bind (Writes.transaction (publish_writes hN (hnotify _))) fun _ => trivial
    exact ⟨hdraw, fun _ => Writes.bind (insertRound_writes hN (hinsert _)) fun _ => trivial⟩
  · split <;> trivial

/-- Opening if due writes what opening writes, or nothing. -/
theorem openRoundIfDue_writes : (openRoundIfDue config crypto game).Writes N P Q held := by
  refine Writes.bind (fun _ => trivial) fun last => ?_
  cases last.bind Round.settledAt with
  | none => exact openRound_writes hN hchain hinsert hnotify hdraw
  | some settledAt =>
    refine Writes.bind_read fun x => ?_
    split
    · trivial
    · exact openRound_writes hN hchain hinsert hnotify hdraw

end

end

/-- The tables that a tick writes. -/
abbrev tickTables : List Table := .chains :: .rounds :: closingTables

/-- A tick writes rounds, chains, and what closing bets writes. -/
theorem tickGame_writes {game : GameKind} : WritesTo tickTables (tickGame config crypto game) := by
  have hN : ∀ w, (fun _ : Write => ([] : List (LockKey × LockMode))) w ⊆ needs w :=
    fun _ => List.nil_subset _
  have hnotify : ∀ id, (Write.notify (.roundState id)).table ∈ tickTables :=
    fun _ => by simp [Write.table]
  have hupdate : ∀ {roundId u}, (Write.updateRound roundId u).table ∈ tickTables := by
    simp [Write.table]
  refine Writes.bind (fun _ => trivial) fun found => ?_
  cases found with
  | none =>
    refine Writes.bind (openRoundIfDue_writes hN (fun _ => by simp [Write.table])
      (fun _ => by simp [Write.table]) hnotify rfl) fun _ => trivial
  | some live =>
    refine Writes.bind_read fun x => ?_
    cases live.status with
    | OPEN =>
      dsimp only
      split
      · exact lockRound_writes hN hnotify fun _ _ => hupdate
      · trivial
    | LOCKED => exact startRound_writes hN hnotify fun _ _ => hupdate
    | RUNNING =>
      cases live.startedAt with
      | none => trivial
      | some startedAt =>
        dsimp only
        split
        · exact Writes.imp (fun _ hw => List.mem_cons_of_mem _ hw.table_mem) voidRound_writes
        · split
          · exact resolveRound_writes hN hnotify fun _ _ => hupdate
          · trivial
    | RESOLVED => exact Writes.imp (fun _ hw => List.mem_cons_of_mem _ hw.table_mem) settleRound_writes
    | _ => trivial

end

end Tessera
