import Tessera.Books.Discipline
import Tessera.Database.Parts

/-!
# Reasoning about a second layer

Rules for the statements of the services under terms that only look at what is committed.

* `Base` — the disciplines that a layer can be put upon, the books first of all;
* `Overlay` — the discipline and the terms of a layer;
* `Overlay.part`, `Overlay.selectForLock`, `Overlay.claim` — the rules.
-/

namespace Tessera

open Relational Transactions Transactions.Program

/-- A discipline that a layer can be put upon. -/
structure Base (R : Discipline Db LockKey Write) : Prop where
  regular : R.Regular
  same : ∀ {k m s s'}, R.same k m s s' → Same k m s s'
  grows : ∀ {s s'}, R.grows s s' → Grows s s'
  draw : ∀ held {s w}, R.inv s → w.isDraw = true → Rely R held s (s.apply w)

/-- The discipline and the terms of a layer. -/
structure Overlay (R : Discipline Db LockKey Write) (T : Terms Db LockKey Write) : Prop where
  lax : Lax database R T fun w => w.isDraw = true
  same : ∀ {k m s s'}, R.same k m s s' → Same k m s s'
  grows : ∀ {s s'}, R.grows s s' → Grows s s'

/-- Drawing from a sequence changes no table. -/
theorem Write.isDraw_same {w : Write} (hw : w.isDraw = true) (s : Db) :
    SameBooks s (s.apply w) ∧ (s.apply w).rounds = s.rounds := by
  cases w with
  | drawNonce => exact ⟨⟨rfl, rfl, rfl, rfl, rfl, rfl⟩, rfl⟩
  | drawEntryId => exact ⟨⟨rfl, rfl, rfl, rfl, rfl, rfl⟩, rfl⟩
  | _ => cases hw

/-- Drawing needs no lock. -/
theorem Write.isDraw_needs {w : Write} (hw : w.isDraw = true) : needs w = [] := by
  cases w with
  | drawNonce => rfl
  | drawEntryId => rfl
  | _ => cases hw

/-- The books are such a discipline. -/
theorem books_base (config : Config) : Base (books config) where
  regular := books_regular config
  same h := h
  grows h := h.toGrows
  draw _ {s w} hs hw :=
    { inv := Consistent.sameBooks hs (w.isDraw_same hw s).1 fun b hb => by
        obtain ⟨r, hr, hover⟩ := (Consistent.fits hs b hb).round
        exact ⟨r, (congrArg (lookup Round.id · b.roundId) (w.isDraw_same hw s).2).trans hr, hover⟩
      grows := .of_eq (Grows.apply s w) (w.isDraw_same hw s).1.bets (w.isDraw_same hw s).2
      same := fun _ _ => Same.apply fun n hn => by
        rw [Write.isDraw_needs hw] at hn
        cases hn }

section
variable {R : Discipline Db LockKey Write} {inv : Db → Prop} {grows : Db → Db → Prop}

/-- A layer can be put upon a layer. -/
theorem Base.upon (hR : Base R) (hrefl : ∀ s, grows s s)
    (htrans : ∀ {s s' s''}, grows s s' → grows s' s'' → grows s s'')
    (hdraw : ∀ {s w}, inv s → w.isDraw = true → inv (s.apply w) ∧ grows s (s.apply w)) :
    Base (R.upon inv grows) where
  regular := hR.regular.upon hrefl htrans
  same h := hR.same h
  grows h := hR.grows h.1
  draw held _ _ hs hw :=
    have h := hR.draw held hs.1 hw
    have hown := hdraw hs.2 hw
    ⟨⟨h.inv, hown.1⟩, ⟨h.grows, hown.2⟩, h.same⟩

/-- Terms about commits only are an overlay. -/
theorem Base.overlay (hR : Base R) (commits : Db → List Write → Prop) :
    Overlay R.eased (Terms.committing commits) where
  lax :=
    { regular := hR.regular.eased
      guard := fun _ _ _ => trivial
      needs := fun _ => rfl
      tidy := fun _ => trivial
      draws := fun held _ _ hs hw => ⟨trivial, (hR.draw held hs hw).eased⟩ }
  same h := hR.same h
  grows h := hR.grows h

/-- So are terms about commits and single writes. -/
theorem Base.allowing (hR : Base R) (commits allows : Db → List Write → Prop) :
    Overlay R.eased (Terms.allowing commits allows) where
  lax :=
    { regular := hR.regular.eased
      guard := fun _ _ _ => trivial
      needs := fun _ => rfl
      tidy := fun _ => trivial
      draws := fun held _ _ hs hw => ⟨trivial, (hR.draw held hs hw).eased⟩ }
  same h := hR.same h
  grows h := hR.grows h

end

/-! ## Rules -/

section
variable {R : Discipline Db LockKey Write} {T : Terms Db LockKey Write}
variable {f f' : Standing Db LockKey Write} {s s' : Db} {α : Type}
variable {table : Table} {tables : List Table}

/-- A part leaves the writes to the other tables as they were. -/
theorem rowsOn_onward (h : Onward R (fun w => w.table ∈ tables) f s f' s')
    (ht : table ∉ tables) : rowsOn table f'.pending = rowsOn table f.pending := by
  obtain ⟨rows, hrows, hall⟩ := h.pending
  have hnone : rowsOn table rows = [] := rowsOn_eq_nil fun w hw heq => ht (heq ▸ hall w hw)
  rw [hrows, rowsOn_append, hnone, List.append_nil]

/-- A session that has written nothing sees the committed state. -/
theorem view_nil (hf : f.pending = []) (s : Db) : f.view database s = s := by
  unfold Standing.view
  rw [hf]
  rfl

/-- A session that has not written to `rounds` sees the committed rounds. -/
theorem rounds_view (h : rowsOn .rounds f.pending = []) (s : Db) :
    (f.view database s).rounds = s.rounds := by
  have hrounds := applyAll_rounds s f.pending
  rw [h] at hrounds
  exact hrounds

/-- A session without a round among its writes sees the committed ones. -/
theorem round_view (h : rowsOn .rounds f.pending = []) (s : Db) (id : Uuid) :
    (f.view database s).round id = s.round id :=
  congrArg (lookup Round.id · id) (rounds_view h s)

/-- A session that has not written to `bets` sees the committed bets. -/
theorem bet_view (h : rowsOn .bets f.pending = []) (s : Db) (id : Uuid) :
    (f.view database s).bet id = s.bet id := by
  have hbets := applyAll_bets s f.pending
  rw [h] at hbets
  exact congrArg (lookup Bet.id · id) hbets

/-- A chain is still there later. -/
theorem Grows.chain (h : Grows s s') {id : Uuid} {c : FairnessChain} (hc : s.chain id = some c) :
    s'.chain id = some c := by
  obtain ⟨more, hmore⟩ := h.chains
  unfold Db.chain
  rw [← hmore]
  exact lookup_append_of_some hc more

/-- What an `INSERT INTO fairness_chains` that succeeds has checked, and still holds. -/
structure ChainInserted (c : FairnessChain) (f : Standing Db LockKey Write) (s : Db) : Prop where
  filled : 0 < c.length
  held : needs (.insertChain c) ⊆ f.held
  id : s.chain c.id = none
  first : (s.chains.any fun d => d.firstNonce == c.firstNonce) = false

/-- What an `INSERT INTO rounds` that succeeds has checked, and still holds. -/
structure RoundInserted (R : Discipline Db LockKey Write) (r : Round) (chainId : Uuid)
    (index : ℤ) (f : Standing Db LockKey Write) (s : Db) : Prop where
  checks : r.violated = none
  held : needs (.insertRound r) ⊆ f.held
  id : s.round r.id = none
  nonce : (s.rounds.any fun q => q.nonce == r.nonce) = false
  position : (s.rounds.any fun q => q.chainId == some chainId && q.chainIndex == some index) = false
  /-- When the index of live rounds was entered, no round of the game was live. -/
  live : ∃ f₁ s₁, Later R f₁ s₁ f s ∧ (.liveRound r.game, .exclusive) ∈ f₁.held ∧ R.inv s₁ ∧
    (r.status.isLive && s₁.rounds.any fun q => q.game == r.game && q.status.isLive) = false
  chain : ((f.view database s).chain chainId).isSome = true

variable (hO : Overlay R T)
include hO

/-- A part of a transaction that writes some tables. -/
theorem Overlay.part {p : Action α} (hp : Touches tables p) (hs : R.inv s) :
    wp database R T p f s fun _ f' s' => Onward R (fun w => w.table ∈ tables) f s f' s' :=
  wp_within hO.lax hs hp

/-- Writes that may be committed in every state, in any number of transactions. -/
theorem Overlay.untouched {P : Write → Prop}
    (hcommits : ∀ s rows, (∀ w ∈ rows, P w) → T.commits s rows) {p : Action α}
    (hp : p.Writes (fun _ => []) P (fun w => w.isDraw = true) f.held)
    (hf : ∀ w ∈ f.pending, P w) :
    wp database R T p f s fun _ f' _ => ∀ w ∈ f'.pending, P w := by
  have hclerk : Clerk database R T (fun _ => []) P fun w => w.isDraw = true :=
    { guard := hO.lax.guard
      needs := fun w => by rw [hO.lax.needs]; exact List.nil_subset _
      tidy := fun _ _ => hO.lax.tidy _
      commits := fun _ hrows => hcommits _ _ hrows
      draws := fun hs hw => (hO.lax.draws [] hs hw).1 }
  exact wp_of_writes hclerk hp hf

/-- What is locked stays as it is. -/
theorem Overlay.kept (h : Rely R f.held s s') {k : LockKey} {m : LockMode}
    (hk : (k, m) ∈ f.held) : Same k m s s' :=
  hO.same (h.same _ hk)

omit hO in
/-- A plain read. -/
theorem wp_selectOnward {view : Db → α} {Q : Post Db LockKey Write AppError α}
    (h : ∀ f' s', Onward R (fun _ => False) f s f' s' →
      Q (.ok (view (f'.view database s'))) f' s') :
    wp database R T (select view : Action α) f s Q :=
  wp_select fun s' hs' =>
    h (f.saw (f.view database s')) s' ⟨⟨hs', List.Subset.refl _⟩, ⟨[], by simp [Standing.saw]⟩,
      List.prefix_append _ _⟩

/-- `SELECT … FOR UPDATE` of at most one row, whose key is known. -/
theorem Overlay.selectForLock {mode : LockMode} {key : α → LockKey} (k : LockKey)
    {view : Db → Option α} {Q : Post Db LockKey Write AppError (Option α)}
    (hkey : ∀ s row, view s = some row → key row = k)
    (hnone : ∀ f' s', Onward R (fun _ => False) f s f' s' →
      view (f'.view database s') = none → Q (.ok none) f' s')
    (hsome : ∀ f' s' row, Onward R (fun _ => False) f s f' s' → (k, mode) ∈ f'.held →
      view (f'.view database s') = some row → Q (.ok (some row)) f' s') :
    wp database R T (selectForLock mode key view : Action (Option α)) f s Q := by
  have hR := hO.lax.regular
  have hsaw : ∀ s₁, Rely R f.held s s₁ →
      Onward R (fun _ => False) f s (f.saw (f.view database s₁)) s₁ := fun s₁ h₁ =>
    ⟨⟨h₁, List.Subset.refl _⟩, ⟨[], by simp [Standing.saw]⟩, List.prefix_append _ _⟩
  refine wp_selectForLock (fun s₁ h₁ hview => hnone _ _ (hsaw s₁ h₁) hview)
    (fun _ _ _ _ _ _ => hO.lax.guard _ _ _) fun s₁ row h₁ hrow s₂ h₂ _ => ?_
  have hlocked : Onward R (fun _ => False) f s
      ((f.saw (f.view database s₁)).locked (key row) mode (f.view database s₂)) s₂ := by
    have h := (hsaw s₁ h₁).wait hR h₂
    exact ⟨⟨h.rely, List.subset_cons_self _ _⟩, ⟨[], by simp [Standing.saw, Standing.locked]⟩,
      h.log.trans (List.prefix_append _ _)⟩
  cases hagain : view (f.view database s₂) with
  | none => exact hnone _ _ hlocked hagain
  | some row' => exact hsome _ _ row' hlocked (hkey _ row hrow ▸ List.mem_cons_self) hagain

/-- Entering a unique index. -/
theorem Overlay.claim {key : LockKey} {taken : Db → Bool} {constraint : String}
    {Q : Post Db LockKey Write AppError Unit}
    (hfree : ∀ f' s', Onward R (fun _ => False) f s f' s' → (key, .exclusive) ∈ f'.held →
      taken (f'.view database s') = false → Q (.ok ()) f' s')
    (herror : ∀ f' s', Q (.error (.uniqueViolation constraint)) f' s') :
    wp database R T (claim key taken constraint) f s Q := by
  refine wp_bind.2 (wp_acquire (fun _ _ => hO.lax.guard _ _ _) fun s' hs' _ => ?_)
  refine wp_ensure (fun h => ?_) fun _ => herror _ _
  rw [Bool.not_eq_true'] at h
  exact hfree _ _ ⟨⟨hs', List.subset_cons_self _ _⟩, ⟨[], by simp [Standing.locked]⟩,
    List.prefix_append _ _⟩ List.mem_cons_self h

/-- A row is written. -/
theorem Overlay.put {w : Write} {Q : Post Db LockKey Write AppError Unit}
    (h : ∀ s', Rely R f.held s s' → Q (.ok ()) (f.wrote w) s') :
    wp database R T (put w : Action Unit) f s Q :=
  wp_put (by rw [hO.lax.needs]; exact List.nil_subset _) (fun _ _ _ => hO.lax.tidy _) h

/-- A step of a round's life: the row that matched stays as it is. -/
theorem Overlay.updateRoundWhere {roundId : Uuid} {from_ : RoundStatus → Bool} {u : RoundUpdate}
    (hf : rowsOn .rounds f.pending = []) {Q : Post Db LockKey Write AppError ℕ}
    (hnone : ∀ f' s', Onward R (fun _ => False) f s f' s' →
      ((s'.round roundId).filter fun r => from_ r.status) = none → Q (.ok 0) f' s')
    (hsome : ∀ f' s' row, Later R f s f' s' → f.log <+: f'.log →
      (.round roundId, .exclusive) ∈ f'.held → s'.round roundId = some row →
      from_ row.status = true → (u.row row).violated = none →
      f'.pending = f.pending ++ [.updateRound roundId u] → Q (.ok 1) f' s')
    (herror : ∀ e f' s', Q (.error e) f' s') :
    wp database R T (updateRoundWhere roundId from_ u) f s Q := by
  have hR := hO.lax.regular
  refine wp_bind.2 (hO.selectForLock (.round roundId) (fun s row hrow => ?_)
    (fun f₁ s₁ h₁ hrow => hnone f₁ s₁ h₁ ?_) fun f₁ s₁ row h₁ hlock hrow => ?_)
  · obtain ⟨hfound, -⟩ := Option.filter_eq_some_iff.1 hrow
    exact congrArg LockKey.round (lookup_key hfound)
  · rwa [round_view (by rw [h₁.still]; exact hf)] at hrow
  · rw [round_view (by rw [h₁.still]; exact hf)] at hrow
    obtain ⟨hfound, hfrom⟩ := Option.filter_eq_some_iff.1 hrow
    refine onValue_ok (wp_bind.2 (wp_assertChecks (fun hchecks => ?_) fun c _ => herror _ _ _))
    refine onValue_ok (wp_bind.2 (hO.put fun s₂ h₂ => onValue_ok ?_))
    have hlater := h₁.toLater.wait hR h₂
    refine hsome _ s₂ row ⟨hlater.rely, hlater.kept⟩ h₁.log hlock ?_ hfrom hchecks ?_
    · exact (hO.kept h₂ hlock).1.trans hfound
    · change f₁.pending ++ _ = _
      rw [h₁.still]

/-- `INSERT INTO fairness_chains`, in a transaction of its own. -/
theorem Overlay.insertChain {c : FairnessChain} (hf : f.pending = [])
    {Q : Post Db LockKey Write AppError Unit}
    (hok : ∀ f' s', Later R f s f' s' → f'.pending = [.insertChain c] →
      (∀ s'', Rely R f'.held s' s'' → ChainInserted c f' s'') → Q (.ok ()) f' s')
    (herror : ∀ e f' s', Q (.error e) f' s') :
    wp database R T (insertChain c) f s Q := by
  have hR := hO.lax.regular
  refine wp_bind.2 (wp_ensure (fun hfilled => ?_) fun _ => herror _ _ _)
  refine onValue_ok (wp_bind.2 (hO.claim (fun f₁ s₁ h₁ hid hfree₁ => ?_) (herror _)))
  refine onValue_ok (wp_bind.2 (hO.claim (fun f₂ s₂ h₂ hfirst hfree₂ => ?_) (herror _)))
  refine onValue_ok (hO.put fun s₃ h₃ => ?_)
  have hf₁ : f₁.pending = [] := h₁.still.trans hf
  have hf₂ : f₂.pending = [] := h₂.still.trans hf₁
  rw [view_nil hf₁] at hfree₁
  rw [view_nil hf₂] at hfree₂
  have hl := (h₁.toLater.trans hR h₂.toLater).wait hR h₃
  refine hok _ s₃ ⟨hl.rely, hl.kept⟩ (by simp [Standing.wrote, hf₂]) fun s₄ h₄ => ?_
  have h₂₄ : Rely R f₂.held s₂ s₄ := h₃.trans hR h₄
  have h₁₄ : Rely R f₁.held s₁ s₄ := (h₂.toLater.wait hR h₂₄).rely
  refine ⟨of_decide_eq_true hfilled, ?_, ?_, ?_⟩
  · simp only [needs, List.cons_subset, List.nil_subset, and_true]
    exact ⟨h₂.kept hid, hfirst⟩
  · have hsame : s₄.chain c.id = s₁.chain c.id := hO.kept h₁₄ hid
    rw [hsame]
    simpa using hfree₁
  · have hsame : (s₄.chains.any fun d => d.firstNonce == c.firstNonce) = _ := hO.kept h₂₄ hfirst
    rw [hsame]
    exact hfree₂

/-- `INSERT INTO rounds`, for a round that was drawn from a chain. -/
theorem Overlay.insertRound {r : Round} {chainId : Uuid} {index : ℤ}
    (hchain : r.chainId = some chainId) (hindex : r.chainIndex = some index)
    (hf : rowsOn .rounds f.pending = []) {Q : Post Db LockKey Write AppError Unit}
    (hok : ∀ f' s', Later R f s f' s' → f'.pending = f.pending ++ [.insertRound r] →
      RoundInserted R r chainId index f' s' → Q (.ok ()) f' s')
    (herror : ∀ e f' s', Q (.error e) f' s') :
    wp database R T (insertRound r) f s Q := by
  have hR := hO.lax.regular
  unfold Tessera.insertRound
  simp only [hchain, hindex, Option.getD_some]
  refine wp_bind.2 (wp_assertChecks (fun hchecks => ?_) fun _ _ => herror _ _ _)
  refine onValue_ok (wp_bind.2 (hO.claim (fun f₁ s₁ h₁ hid hfree₁ => ?_) (herror _)))
  refine onValue_ok (wp_bind.2 (hO.claim (fun f₂ s₂ h₂ hnonce hfree₂ => ?_) (herror _)))
  refine onValue_ok (wp_bind.2 (hO.claim (fun f₃ s₃ h₃ hposition hfree₃ => ?_) (herror _)))
  refine onValue_ok (wp_bind.2 (hO.claim (fun f₄ s₄ h₄ hlive hfree₄ => ?_) (herror _)))
  have h₁₂ := h₁.trans hR h₂
  have h₁₃ := h₁₂.trans hR h₃
  have h₁₄ := h₁₃.trans hR h₄
  refine onValue_ok (wp_bind.2 (hO.put fun s₅ h₅ => onValue_ok (wp_bind.2 (wp_selectOnward
    fun f₆ s₆ h₆ => onValue_ok (wp_ensure (fun hfound => ?_) fun _ => herror _ _ _)))))
  have hrely : Rely R f₄.held s₄ s₆ := h₅.trans hR h₆.rely
  have h₄₆ : Later R f₄ s₄ f₆ s₆ := ⟨hrely, h₆.kept⟩
  have h₃₆ := h₄.toLater.trans hR h₄₆
  have h₂₆ := h₃.toLater.trans hR h₃₆
  have h₁₆ := h₂.toLater.trans hR h₂₆
  rw [rounds_view (by rw [h₄.still, h₃.still, h₂.still, h₁.still]; exact hf)] at hfree₄
  rw [rounds_view (by rw [h₃.still, h₂.still, h₁.still]; exact hf)] at hfree₃
  rw [rounds_view (by rw [h₂.still, h₁.still]; exact hf)] at hfree₂
  rw [round_view (by rw [h₁.still]; exact hf)] at hfree₁
  refine hok f₆ s₆ (h₁.toLater.trans hR h₁₆) ?_ ⟨hchecks, ?_, ?_, ?_, ?_, ?_, hfound⟩
  · rw [h₆.still]
    change f₄.pending ++ _ = _
    rw [h₄.still, h₃.still, h₂.still, h₁.still]
  · simp only [needs, hchain, hindex, Option.getD_some, List.cons_append, List.nil_append,
      List.cons_subset, List.nil_subset, and_true]
    exact ⟨h₁₆.kept hid, h₂₆.kept hnonce, h₄₆.kept hlive, h₃₆.kept hposition⟩
  · exact (hO.kept h₁₆.rely hid).1.trans (by simpa using hfree₁)
  · have hsame : (s₆.rounds.any fun q => q.nonce == r.nonce) = _ := hO.kept h₂₆.rely hnonce
    rw [hsame]
    exact hfree₂
  · have hsame : (s₆.rounds.any fun q => q.chainId == some chainId && q.chainIndex == some index)
        = _ := hO.kept h₃₆.rely hposition
    rw [hsame]
    exact hfree₃
  · exact ⟨f₄, s₄, h₄₆, hlive, h₄.rely.inv, hfree₄⟩

/-! ## Bets -/

/-- `INSERT INTO bets`. -/
theorem Overlay.insertBet {b : Bet} {Q : Post Db LockKey Write AppError Unit}
    (hok : ∀ f' s', Later R f s f' s' → b.violated = none →
      f'.pending = f.pending ++ [.insertBet b] → Q (.ok ()) f' s')
    (herror : ∀ e f' s', Q (.error e) f' s') :
    wp database R T (insertBet b) f s Q := by
  have hR := hO.lax.regular
  refine wp_bind.2 (wp_assertChecks (fun hchecks => ?_) fun _ _ => herror _ _ _)
  refine onValue_ok (wp_bind.2 (hO.claim (fun f₁ s₁ h₁ _ _ => ?_) (herror _)))
  refine onValue_ok (wp_bind.2 (hO.claim (fun f₂ s₂ h₂ _ _ => ?_) (herror _)))
  refine onValue_ok (wp_bind.2 (hO.put fun s₃ h₃ => onValue_ok ?_))
  have hpending : (f₂.wrote (.insertBet b)).pending = f.pending ++ [.insertBet b] := by
    change f₂.pending ++ _ = _
    rw [h₂.still, h₁.still]
  have h₂₃ := h₂.toLater.wait hR h₃
  have h₁₃ : Later R f₁ s₁ (f₂.wrote (.insertBet b)) s₃ := ⟨h₂₃.rely, h₂₃.kept⟩
  refine wp_bind.2 (wp_bind.2 (wp_selectOnward fun f₄ s₄ h₄ => onValue_ok
    (wp_ensure (fun _ => ?_) fun _ => herror _ _ _)))
  refine onValue_ok (wp_bind.2 (wp_selectOnward fun f₅ s₅ h₅ =>
    onValue_ok (wp_ensure (fun _ => ?_) fun _ => herror _ _ _)))
  refine hok f₅ s₅ ?_ hchecks (by rw [h₅.still, h₄.still, hpending])
  exact h₁.toLater.trans hR (h₁₃.trans hR (h₄.toLater.trans hR h₅.toLater))

/-- A bet that is locked stays as the session sees it. -/
theorem Overlay.bet_kept (h : Rely R f.held s s') {id : Uuid} {mode : LockMode}
    (hlock : (.bet id, mode) ∈ f.held) (rows : List Write) :
    (database.applyAll s' rows).bet id = (database.applyAll s rows).bet id := by
  have hsame : Same (.bet id) mode s s' := hO.kept h hlock
  exact hsame.applyAll rows

/-- `UPDATE bets … WHERE status = 'ACTIVE'`: it writes the row it has locked, or nothing. -/
theorem Overlay.updateActiveBet {betId : Uuid} {u : BetUpdate}
    {Q : Post Db LockKey Write AppError (Option Bet)}
    (hnone : ∀ f' s', Onward R (fun _ => False) f s f' s' →
      (∀ row, (f'.view database s').bet betId = some row → row.status ≠ .ACTIVE) →
      Q (.ok none) f' s')
    (hsome : ∀ f' s' row, Later R f s f' s' → f.log <+: f'.log →
      f'.pending = f.pending ++ [.updateBet betId u] → (.bet betId, .exclusive) ∈ f'.held →
      (database.applyAll s' f.pending).bet betId = some row → row.status = .ACTIVE →
      Q (.ok (some (u.row row))) f' s')
    (herror : ∀ e f' s', Q (.error e) f' s') :
    wp database R T (updateActiveBet betId u) f s Q := by
  have hR := hO.lax.regular
  refine wp_bind.2 (hO.selectForLock (.bet betId) (fun s row hrow => ?_)
    (fun f₁ s₁ h₁ hrow => onValue_ok (wp_pure (hnone f₁ s₁ h₁ fun row hfound hactive => ?_)))
    fun f₁ s₁ row h₁ hlock hrow => ?_)
  · obtain ⟨hfound, -⟩ := Option.filter_eq_some_iff.1 hrow
    exact congrArg LockKey.bet (lookup_key hfound)
  · rw [hfound] at hrow
    simp [hactive] at hrow
  · obtain ⟨hfound, hactive⟩ := Option.filter_eq_some_iff.1 hrow
    refine onValue_ok (wp_bind.2 (wp_assertChecks (fun _ => ?_) fun _ _ => herror _ _ _))
    refine onValue_ok (wp_bind.2 (hO.put fun s₂ h₂ => onValue_ok (wp_pure ?_)))
    have hlater := h₁.toLater.wait hR h₂
    have hrow₂ := hO.bet_kept h₂ hlock f₁.pending
    unfold Standing.view at hfound
    rw [hfound, h₁.still] at hrow₂
    refine hsome _ s₂ row ⟨hlater.rely, hlater.kept⟩ h₁.log ?_ hlock hrow₂ (by simpa using hactive)
    change f₁.pending ++ _ = _
    rw [h₁.still]

/-- A row that a scan has locked, as it is. -/
structure BetLocked (roundId : Uuid) (b : Bet) (f : Standing Db LockKey Write) (s : Db) :
    Prop where
  locked : (.bet b.id, .exclusive) ∈ f.held
  row : s.bet b.id = some b
  on : b.roundId = roundId

/-- A bet that is locked stays on its round. -/
theorem Overlay.betLocked {roundId : Uuid} {b : Bet} (h : BetLocked roundId b f s)
    (hl : Later R f s f' s') : BetLocked roundId b f' s' :=
  ⟨hl.kept h.locked, Eq.trans (hO.kept hl.rely h.locked) h.row, h.on⟩

/-- The scan of the active bets of a round. -/
theorem Overlay.lockActiveBets {roundId : Uuid} (hf : rowsOn .bets f.pending = [])
    {Q : Post Db LockKey Write AppError (List Bet)}
    (hok : ∀ found f' s', Onward R (fun _ => False) f s f' s' →
      (∀ b ∈ found, BetLocked roundId b f' s') → Q (.ok found) f' s') :
    wp database R T (lockActiveBets roundId) f s Q := by
  have hR := hO.lax.regular
  refine wp_bind.2 (wp_read fun x => onValue_ok (wp_bind.2 (wp_selectOnward fun f₁ s₁ h₁ => onValue_ok ?_)))
  generalize x.order.permute _ = rows
  refine wp_mono (Q := fun r f' s' => ∃ found, r = .ok found ∧
    Onward R (fun _ => False) f₁ s₁ f' s' ∧ ∀ b ∈ found, BetLocked roundId b f' s') ?_ ?_
  · rintro r f' s' ⟨found, rfl, h₂, hfound⟩
    exact hok found f' s' (h₁.trans hR h₂) hfound
  -- the rows already locked stay as they are while the others are waited for
  have hf₁ : rowsOn .bets f₁.pending = [] := by rw [h₁.still]; exact hf
  have hs₁ := h₁.rely.inv
  clear h₁ hok hf
  induction rows generalizing f₁ s₁ with
  | nil => exact wp_pure ⟨[], rfl, .refl hR hs₁, List.forall_mem_nil _⟩
  | cons row rows ih =>
    refine wp_bind.2 (wp_acquire (fun _ _ => hO.lax.guard _ _ _) fun s₂ h₂ _ => onValue_ok ?_)
    have hl : Onward R (fun _ : Write => False) f₁ s₁
        (f₁.locked (.bet row.id) .exclusive (f₁.view database s₂)) s₂ :=
      ⟨⟨h₂, List.subset_cons_self _ _⟩, ⟨[], by simp [Standing.locked]⟩, List.prefix_append _ _⟩
    refine wp_bind.2 (wp_mono (fun r f' s' hr => ?_) (ih _ _ hf₁ h₂.inv))
    obtain ⟨found, rfl, h₃, hfound⟩ := hr
    refine onValue_ok (wp_pure ⟨_, rfl, hl.trans hR h₃, fun b hb => ?_⟩)
    rcases List.mem_append.1 hb with hb | hb
    · rw [Option.mem_toList] at hb
      obtain ⟨hrow, hcond⟩ := Option.filter_eq_some_iff.1 hb
      rw [bet_view hf₁] at hrow
      have hid : b.id = row.id := lookup_key hrow
      have hon : b.roundId = roundId := by simpa using (Bool.and_eq_true_iff.1 hcond).1
      have hlocked : BetLocked roundId b
          (f₁.locked (.bet row.id) .exclusive (f₁.view database s₂)) s₂ :=
        ⟨hid ▸ List.mem_cons_self, hid ▸ hrow, hon⟩
      exact hO.betLocked hlocked h₃.toLater
    · exact hfound b hb

end

end Tessera
