import Tessera.HashChain.Orbit
import Tessera.Rounds.Proofs

/-!
# What is disclosed of the seed of a live round

A round publishes the hash of its seed when it is opened, and its seed when it is over.  Within one
chain the hash of a seed is the seed of the position before, and the two games draw their positions
from the same chain: so the hash that is published when the next round is opened is the seed of a
round that may still be taking bets.

* `disclosed` — the values that anyone can read;
* `Apart` — what is asked of the hash, on the chains in use;
* `Provable.mem_disclosed`, `FairnessChain.seedAt` — which they are, and where on the chains;
* `reachable_disclosed_iff` — when hashing forward from one of them arrives at a live seed.

Source: `rounds.service.ts` `toRoundView`, `fairness.service.ts` `getProof`, `listChains`.
-/

namespace Tessera

open Relational Transactions Allotment HashChain

/-- The hashes and seeds that the public read paths return. -/
def disclosed (s : Db) : List String :=
  (s.rounds.map toRoundView).flatMap (fun v => v.seedHash :: v.seedRevealed.toList) ++
    (s.rounds.map (proofOf s)).flatMap
      (fun p => p.seedHash :: p.genesisHash :: p.seedRevealed.toList) ++
    (listChains s).map ChainView.genesisHash

section
variable {crypto : Crypto} {s : Db}

theorem Round.Sound.revealed_toList {r : Round} (h : r.Sound) {v : String} :
    v ∈ (if r.status.revealed = true then r.seedRevealed else none).toList ↔
      r.status.revealed = true ∧ v = r.seed := by
  have hrevealed := h.revealed
  by_cases hover : r.status.revealed = true
  · rw [if_pos hover] at hrevealed
    simp [hover, hrevealed]
  · simp [hover]

/-- The values that anyone can read: the hash of every seed, the seeds of the rounds that are over,
and the genesis hash of every chain. -/
theorem Provable.mem_disclosed (h : Provable crypto s) (hsound : ∀ r ∈ s.rounds, r.Sound)
    {v : String} :
    v ∈ disclosed s ↔ (∃ r ∈ s.rounds, v = r.seedHash) ∨
      (∃ r ∈ s.rounds, r.status.revealed = true ∧ v = r.seed) ∨
        ∃ c ∈ s.chains, v = c.genesisHash := by
  unfold disclosed
  simp only [List.mem_append, List.mem_flatMap, List.mem_map, exists_exists_and_eq_and,
    List.mem_cons]
  constructor
  · rintro ((⟨r, hr, hv⟩ | ⟨r, hr, hv⟩) | ⟨view, hview, rfl⟩)
    · rcases hv with hv | hv
      · exact .inl ⟨r, hr, hv⟩
      · exact .inr (.inl ⟨r, hr, (hsound r hr).revealed_toList.1 hv⟩)
    · rcases hv with hv | hv | hv
      · exact .inl ⟨r, hr, hv⟩
      · obtain ⟨c, index, nonce, hc, hdrawn⟩ := h.rounds r hr
        refine .inr (.inr ⟨c, lookup_mem hc, hv.trans ?_⟩)
        simp [proofOf, hdrawn.chainId, hc]
      · exact .inr (.inl ⟨r, hr, (hsound r hr).revealed_toList.1 hv⟩)
    · obtain ⟨c, hc, rfl⟩ := List.mem_map.1 hview
      exact .inr (.inr ⟨c, (List.mem_insertionSort _).1 hc, rfl⟩)
  · rintro (⟨r, hr, hv⟩ | ⟨r, hr, hv⟩ | ⟨c, hc, hv⟩)
    · exact .inl (.inl ⟨r, hr, .inl hv⟩)
    · exact .inl (.inl ⟨r, hr, .inr ((hsound r hr).revealed_toList.2 hv)⟩)
    · refine .inr ⟨_, List.mem_map.2 ⟨c, (List.mem_insertionSort _).2 hc, rfl⟩, hv.symm⟩

/-! ## Where the values lie -/

/-- The seed at an index of a chain. -/
def FairnessChain.seedAt (crypto : Crypto) (c : FairnessChain) (index : ℤ) : String :=
  crypto.sha256^[(c.length - index).toNat] c.terminalSeed

section
variable {r q : Round} {c d : FairnessChain} {index index' : ℤ} {nonce nonce' : ℕ}

theorem Round.DrawnFrom.seed_eq (h : r.DrawnFrom crypto c index nonce) :
    r.seed = c.seedAt crypto index := by
  have hbounds := h.bounds
  have hseed := h.seed
  rw [derive_eq hbounds.1 hbounds.2] at hseed
  exact (Except.ok.inj hseed).symm

/-- The hash of a seed is the seed before it. -/
theorem Round.DrawnFrom.hash_eq (h : r.DrawnFrom crypto c index nonce) :
    r.seedHash = c.seedAt crypto (index - 1) := by
  have hbounds := h.bounds
  rw [h.hash, h.seed_eq]
  unfold FairnessChain.seedAt
  rw [← Function.iterate_succ_apply' crypto.sha256]
  congr 1
  omega

/-- The genesis hash stands before the first seed. -/
theorem FairnessChain.Committed.genesis_eq (h : c.Committed crypto) (hfilled : 0 < c.length) :
    c.genesisHash = c.seedAt crypto 0 := by
  obtain ⟨first, hfirst, hgenesis⟩ := h
  rw [derive_eq le_rfl (by omega)] at hfirst
  rw [hgenesis, ← Except.ok.inj hfirst, ← Function.iterate_succ_apply' crypto.sha256]
  unfold FairnessChain.seedAt
  congr 1
  omega

/-- The chains of the tables, each as far as it is long, are come upon in no other way than by
hashing along them. -/
def Apart (crypto : Crypto) (s : Db) : Prop :=
  Chains crypto.sha256 (fun c : {c // c ∈ s.chains} => c.1.terminalSeed)
    fun c => c.1.length

/-- Without collisions a seed of a chain discloses the seeds up to it, of this chain alone. -/
theorem seedAt_discloses_iff (hapart : Apart crypto s) (hc : c ∈ s.chains) (hd : d ∈ s.chains)
    (hi : index ≤ c.length) (hzero : 0 ≤ index') (hj : index' ≤ d.length) :
    Discloses crypto.sha256 (c.seedAt crypto index) (d.seedAt crypto index') ↔
      c = d ∧ index' ≤ index := by
  have hiff := hapart.discloses_iff (c := ⟨c, hc⟩) (d := ⟨d, hd⟩)
    (m := (c.length - index).toNat) (n := (d.length - index').toNat) (by dsimp only; omega)
  refine hiff.trans ?_
  rw [Subtype.mk.injEq]
  refine and_congr_right ?_
  rintro rfl
  omega

end

/-! ## Live rounds -/

/-- Rounds of one chain stand on it in the order of their nonces. -/
theorem Positions.nonce_lt_iff (hs : Positions crypto s) {r q : Round} (hr : r ∈ s.rounds)
    (hq : q ∈ s.rounds) : r.nonce < q.nonce ↔ s.positionOf r < s.positionOf q := by
  have hdraw : ∀ {r : Round}, r ∈ s.rounds →
      (⟨r.nonce, s.positionOf r⟩ : Draw) ∈ s.book.draws := fun hr => List.mem_map_of_mem hr
  refine ⟨fun h => hs.book.position_lt (hdraw hr) (hdraw hq) h, fun h => ?_⟩
  have hne : r ≠ q := by
    rintro rfl
    exact lt_irrefl _ h
  rcases one_before_other (List.pairwise_map.1 hs.book.sorted) hr hq hne with hlt | hgt
  · exact hlt.1
  · exact absurd hgt.2 h.asymm

end

section
variable {config : Config} {crypto : Crypto}

/-- The seed of a live round is reached by hashing from what anyone can read exactly if a later
round, of either game, has been opened on its chain. -/
theorem reachable_disclosed_iff {w : World Db LockKey Write Inputs AppError Reply Request}
    (h : ReachesAcross config crypto w)
    (hapart : Apart crypto w.db) {r : Round} (hr : r ∈ w.db.rounds) (hlive : r.status.isLive = true) :
    (∃ v ∈ disclosed w.db, Discloses crypto.sha256 v r.seed) ↔
      ∃ q ∈ w.db.rounds, q.chainId = r.chainId ∧ r.nonce < q.nonce := by
  obtain ⟨hlifecycle, hpositions, hprovable⟩ := h.inv
  obtain ⟨c, index, nonce, hc, hdrawn⟩ := hprovable.rounds r hr
  have hbounds := hdrawn.bounds
  have hplace := hdrawn.positionOf hc
  have hhidden : r.status.revealed = false := by
    cases hstatus : r.status <;> rw [hstatus] at hlive <;> first
      | rfl
      | cases hlive
  rw [hdrawn.seed_eq]
  constructor
  · rintro ⟨v, hv, hdiscloses⟩
    rcases (hprovable.mem_disclosed hlifecycle.sound).1 hv with
      ⟨q, hq, rfl⟩ | ⟨q, hq, hover, rfl⟩ | ⟨d, hd, rfl⟩
    · -- the hash of a round that stands further on the chain
      obtain ⟨d, index', nonce', hd, hdrawn'⟩ := hprovable.rounds q hq
      have hbounds' := hdrawn'.bounds
      rw [hdrawn'.hash_eq, seedAt_discloses_iff hapart (lookup_mem hd) (lookup_mem hc) (by omega)
        (by omega) hbounds.2] at hdiscloses
      obtain ⟨rfl, hle⟩ := hdiscloses
      have hplace' := hdrawn'.positionOf hd
      refine ⟨q, hq, hdrawn'.chainId.trans hdrawn.chainId.symm, ?_⟩
      exact (hpositions.nonce_lt_iff hr hq).2 (by omega)
    · -- the seed of a round that is over, and so of another one
      obtain ⟨d, index', nonce', hd, hdrawn'⟩ := hprovable.rounds q hq
      rw [hdrawn'.seed_eq, seedAt_discloses_iff hapart (lookup_mem hd) (lookup_mem hc)
        hdrawn'.bounds.2 (by omega) hbounds.2] at hdiscloses
      obtain ⟨rfl, hle⟩ := hdiscloses
      have hplace' := hdrawn'.positionOf hd
      have hne : w.db.positionOf r ≠ w.db.positionOf q := by
        intro heq
        have hsame : r = q := by
          by_contra hne
          rcases one_before_other (List.pairwise_map.1 hpositions.book.sorted) hr hq hne
            with hlt | hgt
          · exact absurd hlt.2 heq.not_lt
          · exact absurd hgt.2 heq.symm.not_lt
        rw [hsame, hover] at hhidden
        cases hhidden
      refine ⟨q, hq, hdrawn'.chainId.trans hdrawn.chainId.symm, ?_⟩
      exact (hpositions.nonce_lt_iff hr hq).2 (by omega)
    · -- a genesis hash stands before all seeds
      have hfilled := hpositions.book.filled _ (List.mem_map_of_mem hd)
      rw [(hprovable.chains d hd).genesis_eq hfilled, seedAt_discloses_iff hapart hd
        (lookup_mem hc) (by omega) (by omega) hbounds.2] at hdiscloses
      obtain ⟨rfl, hle⟩ := hdiscloses
      exact absurd hle (by omega)
  · rintro ⟨q, hq, hchain, hnonce⟩
    obtain ⟨d, index', nonce', hd, hdrawn'⟩ := hprovable.rounds q hq
    have hid : d.id = c.id :=
      Option.some.inj (hdrawn'.chainId.symm.trans (hchain.trans hdrawn.chainId))
    obtain rfl : d = c := Option.some.inj (hd.symm.trans (hid ▸ hc))
    have hplace' := hdrawn'.positionOf hd
    have hlt := (hpositions.nonce_lt_iff hr hq).1 hnonce
    refine ⟨q.seedHash, (hprovable.mem_disclosed hlifecycle.sound).2 (.inl ⟨q, hq, rfl⟩), ?_⟩
    rw [hdrawn'.hash_eq]
    have hbounds' := hdrawn'.bounds
    exact (seedAt_discloses_iff hapart (lookup_mem hd) (lookup_mem hd) (by omega) (by omega)
      hbounds.2).2
      ⟨rfl, by omega⟩

end

/-- Functions on short texts, with a hash of fixed length. -/
def countingCrypto : Crypto := { plainCrypto with sha256 := countingHash }

/-- Hashing from an unmarked text arrives at a text of fewer than 64 marks only once. -/
theorem countingHash_once {start : String} (hstart : marks start = 0) {m n : ℕ} (hn : n < 64)
    (heq : countingHash^[m] start = countingHash^[n] start) : m = n := by
  have hmarks := congrArg marks heq
  rw [marks_iterate (by omega), marks_iterate (by omega), hstart] at hmarks
  omega

/-- The race for the first chain, with a hash of fixed length. -/
def firstChainCounted : World Db LockKey Write Inputs AppError Reply Request :=
  World.attempt database (requests smallConfig countingCrypto) ⟨migrated, []⟩ firstChain

theorem reachesAcross_firstChainCounted :
    ReachesAcross smallConfig countingCrypto firstChainCounted :=
  World.Run.attempt (fun _ _ => trivial) (.refl _) firstChain

/-- Its one chain is as long as the table says, and apart from itself. -/
theorem apart_firstChainCounted : Apart countingCrypto firstChainCounted.db := by
  have hchains : (firstChainCounted.db.chains.map fun c => (marks c.terminalSeed, c.length)) =
      [(0, 10)] := by decide +kernel
  obtain ⟨c, hc, heq⟩ := List.map_eq_singleton_iff.1 hchains
  simp only [Prod.mk.injEq] at heq
  rintro ⟨d, hd⟩ ⟨d', hd'⟩ m n hn hmet
  have hone : d = c ∧ d' = c := by
    rw [hc] at hd hd'
    simpa using And.intro hd hd'
  obtain ⟨rfl, rfl⟩ := hone
  have hlength : d'.length = 10 := heq.2
  exact ⟨rfl, countingHash_once heq.1 (hn.trans_lt (by dsimp only; omega)) hmet⟩

/-- The first round is open for bets when the second one is opened; the hash of the second
discloses its seed. -/
theorem reachable_disclosed_iff_firstChain :
    ∃ r ∈ firstChainCounted.db.rounds, r.nonce = 1 ∧ r.status = .OPEN ∧
      ∃ v ∈ disclosed firstChainCounted.db, Discloses countingCrypto.sha256 v r.seed := by
  have hrounds : (firstChainCounted.db.rounds.map fun r => (r.nonce, r.chainId, r.status)) =
      [(1, some (uuidAt 3), .OPEN), (2, some (uuidAt 3), .OPEN)] := by decide +kernel
  have hmem : ∀ n ∈ [1, 2], ∃ r ∈ firstChainCounted.db.rounds,
      (r.nonce, r.chainId, r.status) = (n, some (uuidAt 3), .OPEN) := by
    intro n hn
    refine List.mem_map.1 ?_
    rw [hrounds]
    simpa using hn
  obtain ⟨r, hr, heq⟩ := hmem 1 (by simp)
  obtain ⟨q, hq, heq'⟩ := hmem 2 (by simp)
  simp only [Prod.mk.injEq] at heq heq'
  refine ⟨r, hr, heq.1, heq.2.2, ?_⟩
  refine (reachable_disclosed_iff reachesAcross_firstChainCounted apart_firstChainCounted hr ?_).2
    ⟨q, hq, heq'.2.1.trans heq.2.1.symm, ?_⟩
  · rw [heq.2.2]
    rfl
  · omega

end Tessera
