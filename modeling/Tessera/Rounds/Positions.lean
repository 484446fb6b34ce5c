import Tessera.HashChain.Allotment
import Tessera.Rounds.Engine
import Tessera.Database.Parts

/-!
# The positions of the hash chains

The abstract layer over `fairness_chains` and `rounds`: chains are blocks of nonces, and a round
draws one position under the nonce that it is stored with.

* `Db.book` — the blocks and the draws of a state of the tables;
* `FairnessChain.Drew` — a round has drawn its seed from a chain;
* `Opening` — what one transaction does to the two tables;
* `Positions`, `PositionsMove` — what is true of them, and how they change along a run;
* `Positions.after` — every opening keeps the positions, and is a step of the book.

Source: `hash-chain-fairness.provider.ts`, `migrations/1757900005000_fairness-chain.sql`.
-/

namespace Tessera

open Relational Transactions Allotment

/-! ## The book -/

/-- The nonces of a chain. -/
def FairnessChain.block (c : FairnessChain) : Block := ⟨c.firstNonce, c.length⟩

/-- The position that a round has drawn, counted through all chains. -/
def Db.positionOf (s : Db) (r : Round) : ℕ :=
  match r.chainId.bind s.chain, r.chainIndex with
  | some c, some index => (c.firstNonce + index - 1).toNat
  | _, _ => 0

/-- The chains and the rounds as blocks and draws. -/
def Db.book (s : Db) : Book where
  blocks := s.chains.map FairnessChain.block
  draws := s.rounds.map fun r => ⟨r.nonce, s.positionOf r⟩

/-- The nonce that an opening predicts is the next one above every stamp. -/
theorem peekNextNonce_eq (s : Db) : peekNextNonce s = s.book.top + 1 := by
  simp [peekNextNonce, Book.top, Db.book, Function.comp_def]

/-- A round has drawn its seed from a chain. -/
structure FairnessChain.Drew (crypto : Crypto) (c : FairnessChain) (r : Round) (index : ℤ) :
    Prop where
  chainId : r.chainId = some c.id
  chainIndex : r.chainIndex = some index
  seed : deriveChainSeed crypto.sha256 c.terminalSeed c.length index = .ok r.seed

/-- A row is inserted into `rounds` or `fairness_chains`. -/
def Write.opens : Write → Bool
  | .insertRound _ | .insertChain _ => true
  | _ => false

/-- What one transaction does to the two tables. -/
inductive Opening (crypto : Crypto) (s : Db) : List Write → Prop
  | idle {rows : List Write} (rows_idle : ∀ w ∈ rows, w.opens = false) : Opening crypto s rows
  | chain {c : FairnessChain} (id : s.chain c.id = none) (filled : 0 < c.length)
      (first : c.firstNonce = s.book.top + 1) (gap : ¬s.book.Covers (s.book.top + 1)) : Opening crypto s [.insertChain c]
  | round {r : Round} {c : FairnessChain} {index : ℤ} (row : s.chain c.id = some c)
      (drew : c.Drew crypto r index) (next : c.firstNonce + index = s.book.top + 2)
      (ahead : s.book.top < r.nonce) (drawn : r.nonce ≤ s.nonceSeq) :
      Opening crypto s [.insertRound r]

/-- What is true of the chains and of the rounds drawn from them. -/
structure Positions (crypto : Crypto) (s : Db) : Prop where
  book : s.book.Sound
  ids : (s.chains.map FairnessChain.id).Nodup
  drew : ∀ r ∈ s.rounds, ∃ c ∈ s.chains, ∃ index, c.Drew crypto r index
  ahead : s.book.top ≤ s.nonceSeq

/-- How the two tables change along a run. -/
structure PositionsMove (s s' : Db) : Prop where
  leads : s.book.Leads s'.book
  sequence : s.nonceSeq ≤ s'.nonceSeq

section
variable {crypto : Crypto} {s s' s'' : Db} {r : Round} {c : FairnessChain} {index : ℤ}
variable {rows : List Write}

/-- Nothing is drawn when nothing happens. -/
theorem PositionsMove.refl (s : Db) : PositionsMove s s := ⟨.refl _, le_rfl⟩

/-- What is drawn in two parts is drawn. -/
theorem PositionsMove.trans (h : PositionsMove s s') (h' : PositionsMove s' s'') :
    PositionsMove s s'' :=
  ⟨h.leads.trans h'.leads, h.sequence.trans h'.sequence⟩

/-! ## One round and its chain -/

/-- A round has an index on its chain. -/
theorem FairnessChain.Drew.bounds (h : c.Drew crypto r index) : 1 ≤ index ∧ index ≤ c.length := by
  have hseed := h.seed
  unfold deriveChainSeed at hseed
  split at hseed
  · cases hseed
  case isFalse hinside => omega

/-- The position of a round follows from its chain and its index. -/
theorem FairnessChain.Drew.positionOf (h : c.Drew crypto r index) (hc : s.chain c.id = some c) :
    (s.positionOf r : ℤ) = c.firstNonce + index - 1 := by
  have hbounds := h.bounds
  simp only [Db.positionOf, h.chainId, h.chainIndex, Option.bind_some, hc]
  omega

/-- The chain that a round was drawn from has its position. -/
theorem FairnessChain.Drew.covers (h : c.Drew crypto r index) (hc : s.chain c.id = some c) :
    c.block.Covers (s.positionOf r) := by
  have hbounds := h.bounds
  have hposition := h.positionOf hc
  show c.firstNonce ≤ _ ∧ _ < c.firstNonce + c.length
  omega

/-- A chain is found by its id. -/
theorem Positions.chain_of_mem (hs : Positions crypto s) (hc : c ∈ s.chains) :
    s.chain c.id = some c :=
  lookup_of_mem hs.ids hc

/-- Two chains that share a position are one. -/
theorem Positions.chain_unique (hs : Positions crypto s) {d : FairnessChain} (hc : c ∈ s.chains)
    (hd : d ∈ s.chains) {p : ℕ} (hcp : c.block.Covers p) (hdp : d.block.Covers p) : c = d := by
  by_contra hne
  have hsides := one_before_other (List.pairwise_map.1 hs.book.apart) hc hd hne
  simp only [Block.Covers, FairnessChain.block] at hcp hdp hsides
  omega

/-- A position is taken when a round has this place in its chain. -/
theorem Positions.taken (hs : Positions crypto s) (hc : c ∈ s.chains) {p : ℕ}
    (hp : c.block.Covers p) (htaken : s.book.Taken p) :
    ∃ q ∈ s.rounds, q.chainId = some c.id ∧ q.chainIndex = some ((p : ℤ) - c.firstNonce + 1) := by
  obtain ⟨d, hd, rfl⟩ := htaken
  obtain ⟨q, hq, rfl⟩ := List.mem_map.1 hd
  obtain ⟨c', hc', i, hdrew⟩ := hs.drew q hq
  have hrow := hs.chain_of_mem hc'
  obtain rfl : c = c' := hs.chain_unique hc hc' hp (hdrew.covers hrow)
  have hposition := hdrew.positionOf hrow
  have hbounds := hdrew.bounds
  refine ⟨q, hq, hdrew.chainId, hdrew.chainIndex.trans (congrArg some ?_)⟩
  simp only
  omega

/-! ## One transaction -/

/-- An update, or a write to another table, leaves the book as it was. -/
theorem book_apply_idle {w : Write} (hw : w.opens = false) (s : Db) :
    (s.apply w).book = s.book := by
  cases w with
  | insertRound r => cases hw
  | insertChain c => cases hw
  | updateRound id u =>
    unfold Db.book
    congr 1
    change (modify Round.id s.rounds id u.row).map (fun r => (⟨r.nonce, s.positionOf r⟩ : Draw)) = _
    exact map_modify fun _ => rfl
  | _ => rfl

/-- The sequence of the nonces never goes back. -/
theorem nonceSeq_apply (s : Db) (w : Write) : s.nonceSeq ≤ (s.apply w).nonceSeq := by
  cases w with
  | drawNonce => exact Nat.le_succ _
  | _ => exact le_rfl

/-- A write that opens nothing keeps the fixed columns of all rounds. -/
theorem rounds_core_apply {w : Write} (hw : w.opens = false) (s : Db) :
    (s.apply w).rounds.map Round.core = s.rounds.map Round.core := by
  cases w with
  | insertRound r => cases hw
  | updateRound id u => exact map_modify fun _ => rfl
  | _ => rfl

/-- What a chain has to do with a round does not change with the round's life. -/
theorem FairnessChain.Drew.of_core {q : Round} (h : c.Drew crypto q index)
    (hcore : r.core = q.core) : c.Drew crypto r index where
  chainId := (congrArg Round.chainId hcore).trans h.chainId
  chainIndex := (congrArg Round.chainIndex hcore).trans h.chainIndex
  seed := by
    have hseed : r.core.seed = q.core.seed := congrArg Round.seed hcore
    change r.seed = q.seed at hseed
    rw [hseed]
    exact h.seed

/-- An update, or a write to another table. -/
theorem Positions.apply_idle (hs : Positions crypto s) {w : Write} (hw : w.opens = false) :
    Positions crypto (s.apply w) ∧ PositionsMove s (s.apply w) := by
  have hbook := book_apply_idle hw s
  have hchains : (s.apply w).chains = s.chains := by
    rw [Db.apply_chains]
    cases w <;> first
      | rfl
      | cases hw
  refine ⟨⟨?_, ?_, fun r hr => ?_, ?_⟩, ⟨hbook ▸ .refl _, nonceSeq_apply s w⟩⟩
  · rw [hbook]
    exact hs.book
  · rw [hchains]
    exact hs.ids
  · have hcore : r.core ∈ s.rounds.map Round.core :=
      rounds_core_apply hw s ▸ List.mem_map_of_mem hr
    obtain ⟨q, hq, hsame⟩ := List.mem_map.1 hcore
    obtain ⟨c, hc, index, hdrew⟩ := hs.drew q hq
    rw [hchains]
    exact ⟨c, hc, index, hdrew.of_core hsame.symm⟩
  · rw [hbook]
    exact hs.ahead.trans (nonceSeq_apply s w)

/-- A new chain. -/
theorem Positions.insertChain (hs : Positions crypto s) (hid : s.chain c.id = none)
    (hfilled : 0 < c.length) (hfirst : c.firstNonce = s.book.top + 1) (hgap : ¬s.book.Covers (s.book.top + 1)) :
    Positions crypto (s.apply (.insertChain c)) ∧ PositionsMove s (s.apply (.insertChain c)) := by
  -- the rounds were drawn from older chains
  have hposition : ∀ r ∈ s.rounds, (s.apply (.insertChain c)).positionOf r = s.positionOf r := by
    intro r hr
    obtain ⟨d, hd, index, hdrew⟩ := hs.drew r hr
    have hrow := hs.chain_of_mem hd
    have hrow' : (s.apply (.insertChain c)).chain d.id = some d := lookup_append_of_some hrow [c]
    have hold := hdrew.positionOf hrow
    have hnew := hdrew.positionOf hrow'
    omega
  have hbook : (s.apply (.insertChain c)).book = s.book.reserve c.length := by
    unfold Book.reserve
    rw [← hfirst]
    simp only [Db.book, Book.mk.injEq]
    refine ⟨List.map_append, List.map_congr_left fun r hr => ?_⟩
    rw [hposition r hr]
  have hstep : s.book.Step (s.apply (.insertChain c)).book := hbook ▸ .reserve c.length hfilled hgap
  refine ⟨⟨hstep.sound hs.book, ?_, fun r hr => ?_, ?_⟩, ⟨hstep.leads, le_rfl⟩⟩
  · exact nodup_insert hs.ids hid
  · obtain ⟨d, hd, index, hdrew⟩ := hs.drew r hr
    exact ⟨d, List.mem_append_left _ hd, index, hdrew⟩
  · rw [hbook, Book.top_reserve]
    exact hs.ahead

/-- A new round, on the next position. -/
theorem Positions.insertRound (hs : Positions crypto s) (hrow : s.chain c.id = some c)
    (hdrew : c.Drew crypto r index) (hnext : c.firstNonce + index = s.book.top + 2)
    (hahead : s.book.top < r.nonce) (hdrawn : r.nonce ≤ s.nonceSeq) :
    Positions crypto (s.apply (.insertRound r)) ∧ PositionsMove s (s.apply (.insertRound r)) := by
  have hposition : s.positionOf r = s.book.top + 1 := by
    have hpos := hdrew.positionOf hrow
    omega
  have hbook : (s.apply (.insertRound r)).book = s.book.draw r.nonce := by
    unfold Book.draw
    rw [← hposition]
    exact congrArg (Book.mk _) List.map_append
  have hcovered : s.book.Covers (s.book.top + 1) :=
    ⟨_, List.mem_map_of_mem (lookup_mem hrow), hposition ▸ hdrew.covers hrow⟩
  have hstep : s.book.Step (s.apply (.insertRound r)).book := hbook ▸ .draw r.nonce hahead hcovered
  refine ⟨⟨hstep.sound hs.book, hs.ids, fun q hq => ?_, ?_⟩, ⟨hstep.leads, le_rfl⟩⟩
  · rcases List.mem_append.1 hq with hq | hq
    · exact hs.drew q hq
    · obtain rfl := List.mem_singleton.1 hq
      exact ⟨c, lookup_mem hrow, index, hdrew⟩
  · rw [hbook, Book.top_draw]
    exact max_le hs.ahead hdrawn

/-- Every opening keeps the positions, and is a step of the book. -/
theorem Positions.after (hs : Positions crypto s) (h : Opening crypto s rows) :
    Positions crypto (database.applyAll s rows) ∧ PositionsMove s (database.applyAll s rows) := by
  cases h with
  | idle hidle =>
    induction rows generalizing s with
    | nil => exact ⟨hs, .refl s⟩
    | cons w rows ih =>
      have hw := hs.apply_idle (hidle w List.mem_cons_self)
      have hrest := ih hw.1 fun w' hw' => hidle w' (List.mem_cons_of_mem _ hw')
      exact ⟨hrest.1, hw.2.trans hrest.2⟩
  | chain hid hfilled hfirst hgap => exact hs.insertChain hid hfilled hfirst hgap
  | round hrow hdrew hnext hahead hdrawn => exact hs.insertRound hrow hdrew hnext hahead hdrawn

end

end Tessera
