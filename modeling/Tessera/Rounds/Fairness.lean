import Tessera.Rounds.Service

/-!
# Drawing outcomes from a hash chain, and proving them

Source: `src/src/rounds/fairness/hash-chain-fairness.provider.ts`, `fairness.service.ts`.
-/

namespace Tessera

open Transactions Transactions.Program

/-- Source: `fairness.provider.ts` `RoundOutcome`. -/
structure RoundOutcome where
  seedHash : String
  seed : String
  crashPointBp : ℤ
  chainId : Uuid
  chainIndex : ℤ
  deriving DecidableEq

/-- Source: `hash-chain-fairness.provider.ts` `ActiveChain`. -/
structure ActiveChain where
  id : Uuid
  genesisHash : String
  length : ℕ
  firstNonce : ℕ
  deriving DecidableEq

/-- `{ id, genesisHash, length, firstNonce }` of a row. -/
def FairnessChain.active (c : FairnessChain) : ActiveChain :=
  ⟨c.id, c.genesisHash, c.length, c.firstNonce⟩

/-- The first row of a list with a largest value of `f`: `ORDER BY … DESC LIMIT 1`. -/
def greatest {α : Type} (f : α → ℕ) : List α → Option α
  | [] => none
  | a :: rest =>
    match greatest f rest with
    | none => some a
    | some b => if f a < f b then some b else some a

/-- There is a greatest element unless the list is empty. -/
theorem greatest_eq_none {α : Type} {f : α → ℕ} {l : List α} : greatest f l = none ↔ l = [] := by
  cases l with
  | nil => simp [greatest]
  | cons a rest =>
    unfold greatest
    split
    · simp
    · split <;> simp

/-- The greatest element is in the list, and no other is above it. -/
theorem greatest_mem {α : Type} {f : α → ℕ} {l : List α} {a : α} (h : greatest f l = some a) :
    a ∈ l ∧ ∀ b ∈ l, f b ≤ f a := by
  induction l generalizing a with
  | nil => cases h
  | cons x rest ih =>
    unfold greatest at h
    cases hrest : greatest f rest with
    | none =>
      rw [hrest] at h
      obtain rfl : x = a := Option.some.inj h
      obtain rfl := greatest_eq_none.1 hrest
      simp
    | some b =>
      obtain ⟨hmem, hle⟩ := ih hrest
      rw [hrest] at h
      dsimp only at h
      split at h
      case isTrue hlt =>
        obtain rfl : b = a := Option.some.inj h
        refine ⟨List.mem_cons_of_mem _ hmem, fun c hc => ?_⟩
        rcases List.mem_cons.1 hc with rfl | hc
        · exact hlt.le
        · exact hle c hc
      case isFalse hge =>
        obtain rfl : x = a := Option.some.inj h
        refine ⟨List.mem_cons_self, fun c hc => ?_⟩
        rcases List.mem_cons.1 hc with rfl | hc
        · exact le_rfl
        · exact (hle c hc).trans (not_lt.1 hge)

/-- The chain that covers a nonce, if there is one.  Source: the `SELECT` of `chainFor` and
the test on its row. -/
def coveringChain (nonce : ℕ) (s : Db) : Option FairnessChain :=
  (greatest FairnessChain.firstNonce
    (s.chains.filter fun c => decide (c.firstNonce ≤ nonce))).filter
      fun c => decide (nonce < c.firstNonce + c.length)

section
variable (config : Config) (crypto : Crypto)

/-- Source: `HashChainFairnessProvider.verify`. -/
def verifyOutcome (seed : String) (nonce : ℕ) : Except AppError (String × ℤ) :=
  match crashPointFromHash (crypto.hmacSha256 seed (toString nonce)) with
  | .ok crashPointBp => .ok (crypto.sha256 seed, crashPointBp)
  | .error e => .error e

/-- Source: `HashChainFairnessProvider.createChain`. -/
def createChain (firstNonce : ℕ) : Action ActiveChain := do
  let x ← read
  let length := config.fairnessChainLength
  let firstSeed ← check (deriveChainSeed crypto.sha256 x.randomBytes length 1)
  let chain : FairnessChain :=
    { id := x.uuid
      genesisHash := crypto.sha256 firstSeed
      terminalSeed := x.randomBytes
      length := length
      firstNonce := firstNonce
      createdAt := x.now }
  autocommit (insertChain chain)
  pure chain.active

/-- Source: `HashChainFairnessProvider.chainFor`. -/
def chainFor (nonce : ℕ) : Action ActiveChain := do
  match ← select (coveringChain nonce) with
  | some chain => pure chain.active
  | none => createChain config crypto nonce

/-- Source: `HashChainFairnessProvider.drawOutcome`, with `terminalSeedOf`. -/
def drawOutcome (nonce : ℕ) : Action RoundOutcome := do
  let chain ← chainFor config crypto nonce
  let index : ℤ := nonce - chain.firstNonce + 1
  match ← select fun s => s.chain chain.id with
  | none => throw .noResult
  | some row =>
    let seed ← check (deriveChainSeed crypto.sha256 row.terminalSeed chain.length index)
    let (seedHash, crashPointBp) ← check (verifyOutcome crypto seed nonce)
    pure ⟨seedHash, seed, crashPointBp, chain.id, index⟩

end

/-! ## What is published -/

/-- Source: `FairnessProof`; the constant texts that explain the algorithm are left out. -/
structure FairnessProof where
  roundId : Uuid
  game : GameKind
  nonce : ℕ
  seedHash : String
  seedRevealed : Option String
  crashPointBp : Option ℤ
  winningPocket : Option ℤ
  genesisHash : String
  chainIndex : ℤ
  chainLength : ℕ
  deriving DecidableEq

/-- Source: `FairnessService.getProof`, on the row it selects. -/
def proofOf (s : Db) (round : Round) : FairnessProof where
  roundId := round.id
  game := round.game
  nonce := round.nonce
  seedHash := round.seedHash
  seedRevealed := if round.status.revealed then round.seedRevealed else none
  crashPointBp := if round.status.concluded then round.crashPointBp else none
  winningPocket := if round.status.concluded then round.winningPocket else none
  genesisHash := ((round.chainId.bind s.chain).map FairnessChain.genesisHash).getD ""
  chainIndex := round.chainIndex.getD 0
  chainLength := ((round.chainId.bind s.chain).map FairnessChain.length).getD 0

/-- Source: `FairnessService.getProof`. -/
def getProof (s : Db) (roundId : Uuid) : Except AppError FairnessProof :=
  match s.round roundId with
  | none => .error (.roundNotFound roundId)
  | some round => .ok (proofOf s round)

/-- One chain as `listChains` shows it. -/
structure ChainView where
  id : Uuid
  genesisHash : String
  length : ℕ
  firstNonce : ℕ
  committedAt : Time
  deriving DecidableEq

/-- Source: `FairnessService.listChains`. -/
def listChains (s : Db) : List ChainView :=
  (s.chains.insertionSort fun c d => c.firstNonce ≤ d.firstNonce).map fun c =>
    ⟨c.id, c.genesisHash, c.length, c.firstNonce, c.createdAt⟩

end Tessera
