import Tessera.Auth.Lineage
import Tessera.Books.System
import Tessera.Database.Clerical
import Tessera.Database.Overlay

/-!
# Refresh tokens are exchanged one for one

Whatever a transaction commits to `refresh_tokens` is the start of a family, the exchange of the
token that was presented, or the revocation of tokens that it has locked.

* `lineage` — the discipline: the books, and the lineage of tokens on top of them;
* `FreshFamilies` — a login or a registration starts a family that is not there yet;
* `login_lineage`, `refresh_lineage`, … — what each call commits to `refresh_tokens`;
* `lineage_verified` — every call keeps the lineage.
-/

namespace Tessera

open Relational Transactions Transactions.Program

/-- The books and the lineage of tokens. -/
def lineage (config : Config) : Discipline Db LockKey Write :=
  (books config).upon Lineage TokensMove

/-- What one transaction of a call may commit to `refresh_tokens`. -/
def tokenCommits (crypto : Crypto) (c : Call) (s : Db) (rows : List Write) : Prop :=
  TokenChange crypto c s (rowsOn .tokens rows)

/-- The family that a login or a registration starts is not there yet. -/
def FreshFamily (c : Call) (s : Db) (rows : List Write) : Prop :=
  c.opensFamily = true → ∀ t, .insertToken t ∈ rows → ∀ u ∈ s.tokens, u.familyId ≠ t.familyId

/-- The terms of a call. -/
abbrev tokenTerms (crypto : Crypto) (c : Call) : Terms Db LockKey Write :=
  .allowing (tokenCommits crypto c) (FreshFamily c)

/-- Drawing from a sequence changes no token. -/
theorem isDraw_tokens {w : Write} (hw : w.isDraw = true) (s : Db) :
    (s.apply w).tokens = s.tokens := by
  cases w with
  | drawNonce => rfl
  | drawEntryId => rfl
  | _ => cases hw

/-- A layer can be put upon the families. -/
theorem lineage_base (config : Config) : Base (lineage config) :=
  (books_base config).upon TokensMove.refl TokensMove.trans fun hs hw =>
    ⟨hs.of_eq (isDraw_tokens hw _), .of_eq (isDraw_tokens hw _)⟩

section
variable {config : Config} {crypto : Crypto} {c : Call} {f f' : Standing Db LockKey Write}
variable {s s' : Db} {α : Type} {tables : List Table} {t : RefreshToken} {now : Time}
variable {familyId : Uuid} {T : Terms Db LockKey Write}

/-- The families with these terms: nothing is asked of row locks or draws. -/
theorem lineage_overlay (config : Config) (crypto : Crypto) (c : Call) :
    Overlay (lineage config).eased (tokenTerms crypto c) :=
  (lineage_base config).allowing _ _

/-! ## Ready to commit -/

/-- What is pending for `refresh_tokens` may be committed, now and whatever the others do. -/
def TokenReady (config : Config) (crypto : Crypto) (c : Call) (f : Standing Db LockKey Write)
    (s : Db) : Prop :=
  Transactions.Ready (lineage config).eased
    (fun s rows => FreshFamily c s rows → tokenCommits crypto c s rows) f s

/-- The block of a transaction ends ready to commit. -/
def TokenEnds (config : Config) (crypto : Crypto) (c : Call) : Post Db LockKey Write AppError α :=
  EndsReady (lineage config).eased
    fun s rows => FreshFamily c s rows → tokenCommits crypto c s rows

/-- A session without a token among its writes may commit. -/
theorem TokenReady.idle (h : rowsOn .tokens f.pending = []) : TokenReady config crypto c f s := by
  intro s' _ _
  show TokenChange crypto c s' (rowsOn .tokens f.pending)
  rw [h]
  exact .none

/-- A family that is new to some writes is new to fewer of them. -/
theorem FreshFamily.less {rows rows' : List Write} (h : FreshFamily c s rows')
    (hsub : rows ⊆ rows') : FreshFamily c s rows :=
  fun hc t ht => h hc t (hsub ht)

/-- A part that writes no token leaves a session ready to commit. -/
theorem TokenReady.onward (h : TokenReady config crypto c f s)
    (ho : Onward (lineage config).eased (fun w => w.table ∈ tables) f s f' s')
    (ht : .tokens ∉ tables) : TokenReady config crypto c f' s' := by
  intro s'' hs'' hfresh
  have hR := (lineage_overlay config crypto c).lax.regular
  obtain ⟨rows, hrows, -⟩ := ho.pending
  show TokenChange crypto c s'' (rowsOn .tokens f'.pending)
  rw [rowsOn_onward ho ht]
  refine h s'' (ho.rely.trans hR (hs''.mono ho.kept)) (hfresh.less ?_)
  rw [hrows]
  exact List.subset_append_left _ _

/-- A call that writes no token. -/
theorem idle_lineage {p : Action α}
    (hp : p.Writes (fun _ => []) (fun w => w.table ≠ .tokens) (fun w => w.isDraw = true) f.held)
    (hf : f.pending = []) :
    wp database (lineage config).eased (tokenTerms crypto c) p f s fun _ _ _ => True := by
  refine wp_mono (fun _ _ _ _ => trivial) ((lineage_overlay config crypto c).untouched
    (fun s rows hrows => ?_) hp (by rw [hf]; exact List.forall_mem_nil _))
  show TokenChange crypto c s (rowsOn .tokens rows)
  rw [rowsOn_eq_nil hrows]
  exact .none

/-! ## What a session sees of the tokens -/

/-- Updates change no key. -/
theorem tokens_updated {rows : List Write}
    (h : ∀ w ∈ rowsOn .tokens rows, ∃ id u, w = .updateToken id u) :
    (database.applyAll s rows).tokens.map RefreshToken.core = s.tokens.map RefreshToken.core := by
  rw [applyAll_tokens]
  exact updates_core h

/-- `INSERT INTO refresh_tokens`, in a transaction that has inserted none before. -/
theorem wp_newToken (ht : t.usedAt = none ∧ t.revokedAt = none)
    (hf : ∀ w ∈ rowsOn .tokens f.pending, ∃ id u, w = .updateToken id u)
    {Q : Post Db LockKey Write AppError Unit}
    (hok : ∀ f' s', Later (lineage config).eased f s f' s' →
      f'.pending = f.pending ++ [.insertToken t] →
      Always (lineage config).eased f'.held s' (fun s'' => NewToken s'' t) → Q (.ok ()) f' s')
    (herror : ∀ e f' s', Q (.error e) f' s') :
    wp database (lineage config).eased (tokenTerms crypto c) (insertToken t) f s Q := by
  have hO := lineage_overlay config crypto c
  have hR := hO.lax.regular
  have hcores : ∀ {g : Standing Db LockKey Write} (v : Db), g.pending = f.pending →
      (g.view database v).tokens.map RefreshToken.core = v.tokens.map RefreshToken.core := by
    intro g v hg
    unfold Standing.view
    rw [hg]
    exact tokens_updated hf
  refine wp_bind.2 (hO.claim (fun f₁ s₁ h₁ hid hfree₁ => ?_) (herror _))
  refine onValue_ok (wp_bind.2 (hO.claim (fun f₂ s₂ h₂ hhash hfree₂ => ?_) (herror _)))
  refine onValue_ok (wp_bind.2 (hO.put fun s₃ h₃ => onValue_ok
    (wp_bind.2 (wp_selectOnward fun f₄ s₄ h₄ => onValue_ok (wp_ensure (fun _ => ?_)
      fun _ => herror _ _ _)))))
  have h₂₃ := h₂.toLater.wait hR h₃
  have h₁₃ : Later (lineage config).eased f₁ s₁ (f₂.wrote (.insertToken t)) s₃ :=
    ⟨h₂₃.rely, h₂₃.kept⟩
  have h₁₄ := h₁₃.trans hR h₄.toLater
  have h₂₄ : Rely (lineage config).eased f₂.held s₂ s₄ := h₃.trans hR h₄.rely
  refine hok f₄ s₄ (h₁.toLater.trans hR h₁₄) ?_ fun s₅ h₅ => ?_
  · rw [h₄.still]
    change f₂.pending ++ _ = _
    rw [h₂.still, h₁.still]
  -- the keys were free when their index entries were entered, and nobody else can take them
  have h₁₅ := h₁₄.wait hR h₅
  have h₂₅ : Rely (lineage config).eased f₂.held s₂ s₅ := h₂₄.trans hR (h₅.mono h₄.kept)
  refine ⟨?_, fun u hu heq => ?_, ht.1, ht.2⟩
  · have hsame : s₅.token t.id = s₁.token t.id := hO.kept h₁₅.rely hid
    rw [hsame]
    refine lookup_eq_none.2 fun u hu heq => ?_
    have hmem : u.core ∈ (f₁.view database s₁).tokens.map RefreshToken.core := by
      rw [hcores s₁ h₁.still]
      exact List.mem_map_of_mem hu
    obtain ⟨v, hv, hcore⟩ := List.mem_map.1 hmem
    have hnone : (f₁.view database s₁).token t.id = none := by simpa using hfree₁
    exact lookup_eq_none.1 hnone v hv ((RefreshToken.core_eq hcore).1.trans heq)
  · have hsame : (s₅.tokens.any fun u => u.tokenHash == t.tokenHash) =
        s₂.tokens.any fun u => u.tokenHash == t.tokenHash := hO.kept h₂₅ hhash
    have htaken : (s₂.tokens.any fun u => u.tokenHash == t.tokenHash) = true := by
      rw [← hsame]
      exact List.any_eq_true.2 ⟨u, hu, by simpa using heq⟩
    obtain ⟨u₂, hu₂, heq₂⟩ := List.any_eq_true.1 htaken
    have hmem : u₂.core ∈ (f₂.view database s₂).tokens.map RefreshToken.core := by
      rw [hcores s₂ (h₂.still.trans h₁.still)]
      exact List.mem_map_of_mem hu₂
    obtain ⟨v, hv, hcore⟩ := List.mem_map.1 hmem
    have hany : ((f₂.view database s₂).tokens.any fun u => u.tokenHash == t.tokenHash) = true :=
      List.any_eq_true.2 ⟨v, hv, by
        rw [(RefreshToken.core_eq hcore).2.2.2]
        exact heq₂⟩
    rw [hany] at hfree₂
    cases hfree₂

/-! ## Rows that are locked -/

/-- A token that a session has locked, as it is. -/
structure TokenLocked (t : RefreshToken) (f : Standing Db LockKey Write) (s : Db) : Prop where
  locked : (.token t.id, .exclusive) ∈ f.held
  row : s.token t.id = some t

/-- A token that is locked stays as it was read. -/
theorem TokenLocked.later (h : TokenLocked t f s) (hl : Later (lineage config).eased f s f' s') :
    TokenLocked t f' s' :=
  ⟨hl.kept h.locked, Eq.trans (hl.rely.same _ h.locked) h.row⟩

/-- A token that is found by a hash has this hash. -/
theorem tokenByHash_eq_some {hash : String} (h : tokenByHash hash s = some t) :
    t ∈ s.tokens ∧ t.tokenHash = hash :=
  ⟨List.mem_of_find?_eq_some h, by simpa using List.find?_some h⟩

/-- `SELECT … WHERE token_hash = … FOR UPDATE`: the row looked at again is the one locked, since
no two tokens have the same hash. -/
theorem wp_lockByHash {hash : String} (hf : f.pending = [])
    {Q : Post Db LockKey Write AppError (Option RefreshToken)}
    (hnone : ∀ f' s', f'.pending = [] → Q (.ok none) f' s')
    (hsome : ∀ f' s' t, f'.pending = [] → (lineage config).eased.inv s' → TokenLocked t f' s' →
      t.tokenHash = hash → Q (.ok (some t)) f' s') :
    wp database (lineage config).eased (tokenTerms crypto c)
      (selectForLock .exclusive (fun t : RefreshToken => LockKey.token t.id) (tokenByHash hash) :
        Action (Option RefreshToken)) f s Q := by
  have hO := lineage_overlay config crypto c
  refine wp_selectForLock (fun s₁ _ _ => hnone _ _ hf) (fun _ _ _ _ _ _ => hO.lax.guard _ _ _)
    fun s₁ row h₁ hrow s₂ h₂ _ => ?_
  rw [view_nil hf] at hrow ⊢
  rw [view_nil hf]
  cases hagain : tokenByHash hash s₂ with
  | none => exact hnone _ _ hf
  | some t =>
    obtain ⟨hmem₁, hhash₁⟩ := tokenByHash_eq_some hrow
    obtain ⟨hmem, hhash⟩ := tokenByHash_eq_some hagain
    have hs₁ : Lineage s₁ := h₁.inv.2
    have hs₂ : Lineage s₂ := h₂.inv.2
    obtain ⟨t', ht', hcore⟩ := ((lineage_base config).grows h₂.grows).token
      (lookup_of_mem hs₁.ids hmem₁)
    obtain ⟨hid, -, -, hhash'⟩ := RefreshToken.core_eq hcore
    have hsame : t' = t := List.inj_on_of_nodup_map hs₂.hashes (lookup_mem ht') hmem
      (hhash'.trans (hhash₁.trans hhash.symm))
    rw [hsame] at hid
    refine hsome _ _ t hf h₂.inv ⟨?_, lookup_of_mem hs₂.ids hmem⟩ hhash
    rw [hid]
    exact List.mem_cons_self

/-! ## Revoking a family -/

/-- What a revocation has written so far: updates of tokens of the family, each of them locked. -/
def Revokes (familyId : Uuid) (now : Time) (f : Standing Db LockKey Write) (s : Db) : Prop :=
  ∀ w ∈ f.pending, ∃ t, w = .updateToken t.id (.revoked now) ∧ TokenLocked t f s ∧
    t.familyId = familyId

/-- A token that a revocation has come to: it is locked, and was revoked before or is now. -/
def Revoked (now : Time) (id : Uuid) (f : Standing Db LockKey Write) (s : Db) : Prop :=
  (.token id, .exclusive) ∈ f.held ∧
    (.updateToken id (.revoked now) ∈ f.pending ∨
      ∃ t, s.token id = some t ∧ t.revokedAt.isSome = true)

/-- Revocations that are written stay so while the session waits. -/
theorem Revokes.later (h : Revokes familyId now f s)
    (hl : Later (lineage config).eased f s f' s') (hsame : f'.pending = f.pending) :
    Revokes familyId now f' s' := by
  intro w hw
  rw [hsame] at hw
  obtain ⟨t, hw', hlocked, hfamily⟩ := h w hw
  exact ⟨t, hw', hlocked.later hl, hfamily⟩

/-- A token that has been revoked in a session stays so. -/
theorem Revoked.later {id : Uuid} (h : Revoked now id f s)
    (hl : Later (lineage config).eased f s f' s') (hsub : f.pending ⊆ f'.pending) :
    Revoked now id f' s' := by
  refine ⟨hl.kept h.1, h.2.imp (fun h => hsub h) fun ⟨t, ht, hrevoked⟩ => ⟨t, ?_, hrevoked⟩⟩
  exact Eq.trans (hl.rely.same _ h.1) ht

/-- A token that is not among those already updated is seen as it is committed. -/
theorem Revokes.view {id : Uuid} (h : Revokes familyId now f s)
    (hid : ∀ w ∈ f.pending, w ≠ .updateToken id (.revoked now)) (s' : Db) :
    (f.view database s').token id = s'.token id := by
  have hrows : ∀ w ∈ f.pending, ∃ id', w = .updateToken id' (.revoked now) ∧ id' ≠ id := by
    intro w hw
    obtain ⟨t, rfl, -⟩ := h w hw
    refine ⟨t.id, rfl, fun heq => hid _ hw (by rw [heq])⟩
  unfold Standing.view
  generalize f.pending = rows at hrows
  induction rows generalizing s' with
  | nil => rfl
  | cons w rows ih =>
    obtain ⟨⟨id', rfl, hne⟩, hrest⟩ := List.forall_mem_cons.1 hrows
    rw [Database.applyAll_cons, ih _ hrest]
    exact lookup_modify_ne (TokenUpdate.row_id _) hne.symm

/-- The tokens that the `UPDATE` of a revocation has found are locked, looked at again and
revoked one by one. -/
theorem wp_revokeEach (hO : Overlay (lineage config).eased T) {seen : List RefreshToken} :
    ∀ {f : Standing Db LockKey Write} {s : Db},
    (lineage config).eased.inv s → (seen.map RefreshToken.id).Nodup →
    (∀ t ∈ seen, ∃ t', s.token t.id = some t' ∧ t'.familyId = familyId) →
    Revokes familyId now f s →
    (∀ t ∈ seen, ∀ w ∈ f.pending, w ≠ .updateToken t.id (.revoked now)) →
    wp database (lineage config).eased T
      (updateEach (fun t => LockKey.token t.id)
        (fun t s => (s.token t.id).filter fun u => u.familyId == familyId && u.revokedAt.isNone)
        (fun t => .updateToken t.id (.revoked now)) seen : Action Unit) f s
      fun r f' s' => r = .ok () ∧ Onward (lineage config).eased (fun _ => True) f s f' s' ∧
        Revokes familyId now f' s' ∧ ∀ t ∈ seen, Revoked now t.id f' s' := by
  have hR := hO.lax.regular
  induction seen with
  | nil => exact fun hs _ _ hrevokes _ =>
      wp_pure ⟨rfl, .refl hR hs, hrevokes, List.forall_mem_nil _⟩
  | cons row seen ih =>
    intro f s hs hnodup hthere hrevokes hnot
    obtain ⟨hrow, hnodup⟩ := List.nodup_cons.1 hnodup
    obtain ⟨⟨t₀, ht₀, hof₀⟩, hthere⟩ := List.forall_mem_cons.1 hthere
    obtain ⟨hnotRow, hnot⟩ := List.forall_mem_cons.1 hnot
    have hrest : ∀ f₂ s₂, Onward (lineage config).eased (fun _ => True) f s f₂ s₂ →
        Revokes familyId now f₂ s₂ → Revoked now row.id f₂ s₂ →
        (∀ w ∈ f₂.pending, w ∈ f.pending ∨ w = .updateToken row.id (.revoked now)) →
        wp database (lineage config).eased T
          (updateEach (fun t => LockKey.token t.id)
            (fun t s => (s.token t.id).filter fun u => u.familyId == familyId && u.revokedAt.isNone)
            (fun t => .updateToken t.id (.revoked now)) seen : Action Unit) f₂ s₂
          fun r f' s' => r = .ok () ∧ Onward (lineage config).eased (fun _ => True) f s f' s' ∧
            Revokes familyId now f' s' ∧ ∀ t ∈ row :: seen, Revoked now t.id f' s' := by
      intro f₂ s₂ h₂ hrevokes₂ hrevoked hpending
      refine wp_mono (fun r f' s' hend => ?_) (ih h₂.rely.inv hnodup (fun t ht => ?_) hrevokes₂
        fun t ht w hw heq => ?_)
      · obtain ⟨hr, h₃, hrevokes', hseen⟩ := hend
        obtain ⟨rows, hrows, -⟩ := h₃.pending
        refine ⟨hr, h₂.trans hR h₃, hrevokes', List.forall_mem_cons.2 ⟨?_, hseen⟩⟩
        exact hrevoked.later h₃.toLater (by rw [hrows]; exact List.subset_append_left _ _)
      · obtain ⟨t', ht', hof⟩ := hthere t ht
        obtain ⟨t'', ht'', hcore⟩ := ((lineage_base config).grows h₂.rely.grows).token ht'
        exact ⟨t'', ht'', (RefreshToken.core_eq hcore).2.2.1.trans hof⟩
      · rcases hpending w hw with hw | hw
        · exact hnot t ht w hw heq
        · rw [hw, Write.updateToken.injEq] at heq
          exact hrow (List.mem_map.2 ⟨t, ht, heq.1.symm⟩)
    refine wp_bind.2 (wp_acquire (fun _ _ => hO.lax.guard _ _ _) fun s₁ h₁ _ => onValue_ok ?_)
    obtain ⟨t₁, ht₁, hcore⟩ := ((lineage_base config).grows h₁.grows).token ht₀
    have hof₁ : t₁.familyId = familyId := (RefreshToken.core_eq hcore).2.2.1.trans hof₀
    have hid₁ : t₁.id = row.id := lookup_key ht₁
    dsimp only
    rw [hrevokes.view hnotRow, ht₁]
    generalize hlocked : f.locked (.token row.id) .exclusive (f.view database s₁) = f₁
    have hon₁ : Onward (lineage config).eased (fun _ => True) f s f₁ s₁ := by
      subst hlocked
      exact ⟨⟨h₁, List.subset_cons_self _ _⟩, ⟨[], by simp [Standing.locked]⟩,
        List.prefix_append _ _⟩
    have hlock₁ : (.token row.id, .exclusive) ∈ f₁.held := hlocked ▸ List.mem_cons_self
    have hpending₁ : f₁.pending = f.pending := hlocked ▸ rfl
    cases hrevokedAt : t₁.revokedAt with
    | some at_ =>
      rw [Option.filter_some_neg (by simp [hrevokedAt])]
      refine hrest f₁ s₁ hon₁ (hrevokes.later hon₁.toLater hpending₁)
        ⟨hlock₁, .inr ⟨t₁, ht₁, by rw [hrevokedAt]; rfl⟩⟩ fun w hw => .inl (hpending₁ ▸ hw)
    | none =>
      rw [Option.filter_some_pos (by simp [hrevokedAt, hof₁])]
      refine wp_bind.2 (hO.put fun s₂ h₂ => onValue_ok ?_)
      have hpending₂ : (f₁.wrote (.updateToken t₁.id (.revoked now))).pending =
          f.pending ++ [.updateToken row.id (.revoked now)] := by
        change f₁.pending ++ _ = _
        rw [hpending₁, hid₁]
      have hon₂ : Onward (lineage config).eased (fun _ => True) f s
          (f₁.wrote (.updateToken t₁.id (.revoked now))) s₂ := by
        have h := hon₁.wait hR h₂
        exact ⟨⟨h.rely, h.kept⟩, ⟨_, hpending₂, fun _ _ => trivial⟩, hon₁.log⟩
      refine hrest _ s₂ hon₂ (fun w hw => ?_) ⟨hlock₁, .inl ?_⟩ fun w hw => ?_
      · rw [hpending₂] at hw
        rcases List.mem_append.1 hw with hw | hw
        · obtain ⟨t, hw', hlocked, hfamily⟩ := hrevokes w hw
          exact ⟨t, hw', hlocked.later hon₂.toLater, hfamily⟩
        · refine ⟨t₁, by rw [List.mem_singleton.1 hw, hid₁], ⟨hid₁ ▸ hlock₁, ?_⟩, hof₁⟩
          rw [hid₁]
          exact Eq.trans (h₂.same _ hlock₁) ht₁
      · rw [hpending₂]
        exact List.mem_append_right _ List.mem_cons_self
      · rw [hpending₂] at hw
        exact (List.mem_append.1 hw).imp id List.mem_singleton.1

/-- `revokeFamily`, in a transaction that has written nothing before: it writes only rows that it
has locked, and comes to every token of the family that it had found. -/
theorem wp_revokeFamily (hO : Overlay (lineage config).eased T) (hf : f.pending = [])
    {Q : Post Db LockKey Write AppError Unit}
    (hok : ∀ f' s' s₁ now, Later (lineage config).eased f s f' s' →
      Rely (lineage config).eased f.held s s₁ → (lineage config).eased.grows s₁ s' →
      Revokes familyId now f' s' →
      (∀ t ∈ s₁.tokens, t.familyId = familyId → t.revokedAt = none → Revoked now t.id f' s') →
      Q (.ok ()) f' s') :
    wp database (lineage config).eased T (revokeFamily familyId) f s Q := by
  refine wp_bind.2 (wp_read fun x => onValue_ok (wp_bind.2 (wp_select fun s₁ h₁ => onValue_ok ?_)))
  rw [view_nil hf]
  have hids : (s₁.tokens.map RefreshToken.id).Nodup := Lineage.ids h₁.inv.2
  have hnothing : Revokes familyId x.now (f.saw s₁) s₁ := by
    intro w hw
    change w ∈ f.pending at hw
    rw [hf] at hw
    cases hw
  refine wp_mono (fun r f' s' hend => ?_) (wp_revokeEach hO h₁.inv
    (hids.sublist (List.filter_sublist.map _)) (fun t ht => ?_) hnothing fun t _ w hw => ?_)
  · obtain ⟨rfl, hon, hrevokes, hseen⟩ := hend
    have hl : Later (lineage config).eased f s (f.saw s₁) s₁ := ⟨h₁, List.Subset.refl _⟩
    refine hok f' s' s₁ x.now (hl.trans hO.lax.regular hon.toLater) h₁ hon.rely.grows hrevokes
      fun t ht hof hnone => ?_
    exact hseen t (List.mem_filter.2 ⟨ht, by simp [hof, hnone]⟩)
  · obtain ⟨hmem, hcond⟩ := List.mem_filter.1 ht
    refine ⟨t, lookup_of_mem hids hmem, by simpa using (Bool.and_eq_true_iff.1 hcond).1⟩
  · change w ∈ f.pending at hw
    rw [hf] at hw
    cases hw

/-! ## What each transaction commits -/

/-- After an error nothing is promised about the tokens. -/
theorem tokenEnds_error {e : AppError} :
    TokenEnds config crypto c (.error e : Except AppError α) f s :=
  fun _ h => by cases h

/-- A revocation writes tokens only. -/
theorem rowsOn_revokes (h : Revokes familyId now f s) : rowsOn .tokens f.pending = f.pending := by
  refine List.filter_eq_self.2 fun w hw => ?_
  obtain ⟨t, rfl, -⟩ := h w hw
  rfl

/-- Revocations of one family may be committed. -/
theorem TokenReady.revoked (h : Revokes familyId now f s) : TokenReady config crypto c f s := by
  intro s' hs' _
  have heach : ∀ w ∈ rowsOn .tokens f.pending, ∃ t, w = .updateToken t.id (.revoked now) ∧
      s'.token t.id = some t ∧ t.familyId = familyId := by
    intro w hw
    rw [rowsOn_revokes h] at hw
    obtain ⟨t, rfl, hlocked, hfamily⟩ := h w hw
    exact ⟨t, rfl, Eq.trans (hs'.same _ hlocked.locked) hlocked.row, hfamily⟩
  exact TokenChange.revoked heach

/-- Revoking a family commits revocations of its tokens only. -/
theorem revokeFamily_lineage (hf : f.pending = []) :
    wp database (lineage config).eased (tokenTerms crypto c) (revokeFamily familyId) f s
      (TokenEnds config crypto c) :=
  wp_revokeFamily (lineage_overlay config crypto c) hf
    fun _ _ _ _ _ _ _ hrevokes _ _ _ => TokenReady.revoked hrevokes

/-- `logout` revokes the family of the token that it was given, or nothing. -/
theorem logout_lineage {rawToken : String} (hf : f.pending = []) :
    wp database (lineage config).eased (tokenTerms crypto c) (logout crypto rawToken) f s
      fun _ _ _ => True := by
  refine wp_bind.2 (wp_select fun s₁ _ => onValue_ok ?_)
  cases tokenByHash (hashToken crypto rawToken) (f.view database s₁) with
  | none => exact wp_pure trivial
  | some stored =>
    exact wp_mono (fun _ _ _ _ => trivial) (wp_transaction_allowed (revokeFamily_lineage hf))

/-- A token is issued into a family. -/
theorem wp_issueIntoFamily {userId : Uuid}
    (hf : ∀ w ∈ rowsOn .tokens f.pending, ∃ id u, w = .updateToken id u)
    {Q : Post Db LockKey Write AppError String}
    (hok : ∀ f' s' t token, Later (lineage config).eased f s f' s' →
      f'.pending = f.pending ++ [.insertToken t] →
      Always (lineage config).eased f'.held s' (fun s'' => NewToken s'' t) →
      t.userId = userId → t.familyId = familyId → Q (.ok token) f' s')
    (herror : ∀ e f' s', Q (.error e) f' s') :
    wp database (lineage config).eased (tokenTerms crypto c)
      (issueIntoFamily config crypto userId familyId) f s Q := by
  refine wp_bind.2 (wp_read fun jti => onValue_ok (wp_bind.2 (wp_read fun x => onValue_ok ?_)))
  refine wp_bind.2 (wp_newToken ⟨rfl, rfl⟩ hf (fun f' s' hl hpending hnew => ?_) herror)
  exact onValue_ok (wp_pure (hok f' s' _ _ hl hpending hnew rfl rfl))

/-- A login or a registration starts its family with one token. -/
theorem issueRefreshToken_lineage {userId : Uuid} {k : String → Action α}
    (hopens : c.opensFamily = true) (hf : rowsOn .tokens f.pending = [])
    (hk : ∀ token f' s', TokenReady config crypto c f' s' →
      wp database (lineage config).eased (tokenTerms crypto c) (k token) f' s'
        (TokenEnds config crypto c)) :
    wp database (lineage config).eased (tokenTerms crypto c)
      (issueRefreshToken config crypto userId >>= k) f s (TokenEnds config crypto c) := by
  refine wp_bind.2 (wp_bind.2 (wp_read fun x => onValue_ok (wp_issueIntoFamily
    (by rw [hf]; exact List.forall_mem_nil _)
    (fun f' s' t token _ hpending hnew _ _ => onValue_ok (hk token f' s' fun s'' hs'' hfresh => ?_))
    fun _ _ _ => tokenEnds_error)))
  have hrows : rowsOn .tokens f'.pending = [.insertToken t] := by
    rw [hpending, rowsOn_append, hf]
    rfl
  show TokenChange crypto c s'' (rowsOn .tokens f'.pending)
  rw [hrows]
  exact .issued hopens (hnew s'' hs'') (hfresh hopens t (by rw [hpending]; simp))

/-- The answer of the auth service changes no token. -/
theorem buildResult_lineage {user : AuthenticatedUser} {token : String}
    (h : TokenReady config crypto c f s) :
    wp database (lineage config).eased (tokenTerms crypto c)
      (buildResult config crypto user token) f s (TokenEnds config crypto c) :=
  wp_bind.2 (wp_read fun _ => onValue_ok (wp_pure fun _ _ => h))

/-- `login` opens a new family. -/
theorem login_lineage {dto : LoginDto} (hopens : c.opensFamily = true) (hf : f.pending = []) :
    wp database (lineage config).eased (tokenTerms crypto c) (login config crypto dto) f s
      fun _ _ _ => True := by
  refine wp_bind.2 (wp_select fun s₁ _ => onValue_ok ?_)
  cases userByEmail (crypto.citext dto.email) (f.view database s₁) with
  | none => exact wp_throw trivial
  | some user =>
    dsimp only
    split
    · exact wp_throw trivial
    · split
      · exact wp_throw trivial
      · refine wp_mono (fun _ _ _ _ => trivial) (wp_transaction_allowed ?_)
        refine issueRefreshToken_lineage hopens ?_ fun _ _ _ => buildResult_lineage
        change rowsOn .tokens f.pending = []
        rw [hf]
        rfl

/-- A part that writes other tables, before the session is ready. -/
theorem wp_thenToken (tables : List Table) {β : Type} {p : Action β} {k : β → Action α}
    (hp : Touches tables p) (hs : (lineage config).eased.inv s)
    (hk : ∀ a f' s', Onward (lineage config).eased (fun w => w.table ∈ tables) f s f' s' →
      wp database (lineage config).eased (tokenTerms crypto c) (k a) f' s'
        (TokenEnds config crypto c)) :
    wp database (lineage config).eased (tokenTerms crypto c) (p >>= k) f s
      (TokenEnds config crypto c) := by
  refine wp_bind.2 (wp_mono (fun r f' s' h => ?_) ((lineage_overlay config crypto c).part hp hs))
  cases r with
  | ok a => exact onValue_ok (hk a f' s' h)
  | error e => exact tokenEnds_error

-- the display name is not looked into
attribute [local irreducible] trim

/-- Registering opens a new family for the new user. -/
theorem registerTransaction_lineage {dto : RegisterDto} {passwordHash : String} {grant : Money}
    (hopens : c.opensFamily = true) (hs : (lineage config).eased.inv s) (hf : f.pending = []) :
    wp database (lineage config).eased (tokenTerms crypto c)
      (transaction (registerTransaction config crypto dto passwordHash grant)) f s
      fun _ _ _ => True := by
  refine wp_mono (fun _ _ _ _ => trivial) (wp_transaction_allowed ?_)
  refine wp_bind.2 (wp_read fun x => onValue_ok ?_)
  refine wp_thenToken [.users] insertUser_touches hs fun _ f₁ s₁ h₁ => ?_
  refine wp_thenToken [.accounts] createWallet_touches h₁.rely.inv fun _ f₂ s₂ h₂ => ?_
  refine wp_thenToken [.ledger] postEnlisted_touches h₂.rely.inv fun _ f₃ s₃ h₃ => ?_
  refine issueRefreshToken_lineage hopens ?_ fun _ _ _ => buildResult_lineage
  rw [rowsOn_onward h₃ (by simp), rowsOn_onward h₂ (by simp), rowsOn_onward h₁ (by simp), hf]
  rfl

/-- So does the call, whatever it answers. -/
theorem register_lineage {dto : RegisterDto} (hopens : c.opensFamily = true)
    (hf : f.pending = []) :
    wp database (lineage config).eased (tokenTerms crypto c) (register config crypto dto) f s
      fun _ _ _ => True := by
  refine wp_bind.2 (wp_select fun s₁ h₁ => onValue_ok ?_)
  cases userByEmail (crypto.citext dto.email) (f.view database s₁) with
  | some user => exact wp_throw trivial
  | none =>
    refine wp_bind.2 (wp_read fun x => onValue_ok (wp_bind.2 (wp_check ?_)))
    cases Money.fromMinor config.signupGrantMinor with
    | error e => trivial
    | ok grant =>
      refine onValue_ok (wp_handle.2 (wp_mono (fun r _ _ _ => ?_)
        (registerTransaction_lineage hopens h₁.inv hf)))
      cases r with
      | ok result => trivial
      | error e =>
        dsimp only
        split <;> trivial

/-- The exchange of a token that is locked. -/
theorem rotateToken_lineage {rawToken : String} (hc : c = .refresh rawToken)
    (hlocked : TokenLocked t f s) (hhash : t.tokenHash = hashToken crypto rawToken)
    (hunspent : t.usedAt = none) (hunrevoked : t.revokedAt = none) (hf : f.pending = []) :
    wp database (lineage config).eased (tokenTerms crypto c) (rotateToken config crypto t) f s
      (TokenEnds config crypto c) := by
  have hO := lineage_overlay config crypto c
  have hR := hO.lax.regular
  refine wp_bind.2 (wp_read fun x => onValue_ok (wp_bind.2 ?_))
  refine wp_mono (Q := fun r f₁ s₁ => ∃ n, r = .ok n ∧ TokenLocked t f₁ s₁ ∧
    f₁.pending = [.updateToken t.id (.used x.now)]) (fun r f₁ s₁ hr => ?_) ?_
  · obtain ⟨n, rfl, hlocked₁, hpending₁⟩ := hr
    refine onValue_ok (wp_bind.2 (wp_selectOnward fun f₂ s₂ h₂ => onValue_ok ?_))
    have hlocked₂ := hlocked₁.later h₂.toLater
    have hpending₂ : f₂.pending = [.updateToken t.id (.used x.now)] := h₂.still.trans hpending₁
    have hspent : TokenReady config crypto c f₂ s₂ := by
      intro s' hs' _
      show TokenChange crypto c s' (rowsOn .tokens f₂.pending)
      rw [hpending₂]
      exact .spent hc hhash (Eq.trans (hs'.same _ hlocked₂.locked) hlocked₂.row) hunspent
        hunrevoked
    cases huser : (f₂.view database s₂).user t.userId with
    | none => exact wp_pure fun _ _ => hspent
    | some user =>
      dsimp only
      split
      · exact wp_pure fun _ _ => hspent
      · have hid : user.id = t.userId := lookup_key huser
        refine wp_bind.2 (wp_issueIntoFamily (by rw [hpending₂]; simp [rowsOn, Write.table])
          (fun f₃ s₃ t' token h₃ hpending₃ hnew huser₃ hfamily₃ => onValue_ok ?_)
          fun _ _ _ => tokenEnds_error)
        have hready : TokenReady config crypto c f₃ s₃ := by
          intro s' hs' _
          have hlocked₃ := hlocked₂.later h₃
          show TokenChange crypto c s' (rowsOn .tokens f₃.pending)
          rw [hpending₃, hpending₂]
          exact .rotated hc hhash (Eq.trans (hs'.same _ hlocked₃.locked) hlocked₃.row) hunspent
            hunrevoked (hnew s' hs') hfamily₃ (huser₃.trans hid)
        exact wp_bind.2 (wp_bind.2 (wp_read fun _ => onValue_ok (wp_pure (onValue_ok
          (wp_pure fun _ _ => hready)))))
  · refine wp_bind.2 (hO.selectForLock (.token t.id) (fun _ _ hrow => ?_)
      (fun f₁ s₁ h₁ hnone => ?_) fun f₁ s₁ row h₁ _ hrow => onValue_ok ?_)
    · exact congrArg LockKey.token (lookup_key hrow)
    · rw [view_nil (h₁.still.trans hf), (hlocked.later h₁.toLater).row] at hnone
      cases hnone
    · rw [view_nil (h₁.still.trans hf), (hlocked.later h₁.toLater).row] at hrow
      obtain rfl := Option.some.inj hrow
      refine wp_bind.2 (hO.put fun s₂ h₂ => onValue_ok (wp_pure ⟨1, rfl, ?_, ?_⟩))
      · have h := h₁.toLater.wait hR h₂
        exact hlocked.later ⟨h.rely, h.kept⟩
      · change f₁.pending ++ _ = _
        rw [h₁.still, hf]
        rfl

/-- The token that is presented is rotated, or its family is revoked. -/
theorem refreshTransaction_lineage {rawToken : String} (hc : c = .refresh rawToken)
    (hf : f.pending = []) :
    wp database (lineage config).eased (tokenTerms crypto c)
      (refreshTransaction config crypto (hashToken crypto rawToken)) f s
      (TokenEnds config crypto c) := by
  refine wp_bind.2 (wp_lockByHash hf (fun f₁ s₁ hf₁ => onValue_ok (wp_pure fun _ _ => ?_))
    fun f₁ s₁ stored hf₁ hs₁ hlocked hhash => onValue_ok ?_)
  · exact TokenReady.idle (by rw [hf₁]; rfl)
  have hidle : ∀ {f₂ : Standing Db LockKey Write} {s₂ : Db}, f₂.pending = [] →
      TokenReady config crypto c f₂ s₂ := fun hf₂ => .idle (by rw [hf₂]; rfl)
  dsimp only
  split
  · exact wp_pure fun _ _ => hidle hf₁
  case isFalse hrevoked =>
  refine wp_bind.2 (wp_read fun x => onValue_ok ?_)
  split
  · exact wp_pure fun _ _ => hidle hf₁
  · split
    · refine wp_bind.2 (wp_mono (fun r f₂ s₂ hr => ?_) (revokeFamily_lineage hf₁))
      cases r with
      | ok _ => exact onValue_ok (wp_pure fun _ _ => hr _ rfl)
      | error e => exact tokenEnds_error
    case isFalse hused =>
    exact rotateToken_lineage hc hlocked hhash (by simpa using hused) (by simpa using hrevoked) hf₁

/-- So it is by the call, whatever it answers. -/
theorem refresh_lineage {rawToken : String} (hc : c = .refresh rawToken) (hf : f.pending = []) :
    wp database (lineage config).eased (tokenTerms crypto c) (refresh config crypto rawToken) f s
      fun _ _ _ => True := by
  refine wp_bind.2 (wp_read fun x => onValue_ok ?_)
  split
  · exact wp_throw trivial
  · refine wp_bind.2 (wp_mono (fun r f₁ s₁ _ => ?_)
      (wp_transaction_allowed (refreshTransaction_lineage hc hf)))
    cases r with
    | error e => trivial
    | ok outcome =>
      cases outcome with
      | reuse => trivial
      | invalid => trivial
      | ok result => trivial

/-! ## Every call -/

/-- An answer that is put into a reply changes nothing. -/
theorem token_reply {g : α → Reply} {p : Action α}
    (hp : wp database (lineage config).eased (tokenTerms crypto c) p f s fun _ _ _ => True) :
    wp database (lineage config).eased (tokenTerms crypto c) (g <$> p) f s fun _ _ _ => True :=
  wp_map (wp_mono (fun _ _ _ _ => trivial) hp)

/-- A call that writes other tables only. -/
theorem other_lineage (tables : List Table) (ht : .tokens ∉ tables) {p : Action α}
    (hp : WritesTo tables p) :
    wp database (lineage config).eased (tokenTerms crypto c) p {} s fun _ _ _ => True :=
  idle_lineage (Writes.imp (fun _ hw => tables_ne hw ht) hp) rfl

/-- Every call keeps the lineage of tokens. -/
theorem call_lineage (config : Config) (crypto : Crypto) (c : Call) :
    wp database (lineage config).eased (tokenTerms crypto c) (program config crypto c) {} s
      fun _ _ _ => True := by
  have hN : ∀ w, (fun _ : Write => ([] : List (LockKey × LockMode))) w ⊆ needs w :=
    fun _ => List.nil_subset _
  have hupdate : ∀ (roundId : Uuid) (u : RoundUpdate),
      (Write.updateRound roundId u).table ∈ tickTables := fun _ _ => by simp [Write.table]
  have hnotify : ∀ id, (Write.notify (.roundState id)).table ∈ tickTables :=
    fun _ => by simp [Write.table]
  have ht : .tokens ∉ tickTables := by simp
  cases c with
  | register dto => exact token_reply (register_lineage rfl rfl)
  | login dto => exact token_reply (login_lineage rfl rfl)
  | refresh rawToken => exact token_reply (refresh_lineage rfl rfl)
  | logout rawToken => exact token_reply (logout_lineage rfl)
  | placeBet input => exact token_reply (other_lineage closingTables (by simp) placeBet_writes)
  | cashOut input => exact token_reply (other_lineage closingTables (by simp) cashOut_writes)
  | openRoundIfDue game =>
    exact token_reply (other_lineage tickTables ht (openRoundIfDue_writes hN
      (fun _ => by simp [Write.table]) (fun _ => by simp [Write.table]) hnotify rfl))
  | lockRound roundId =>
    exact token_reply (other_lineage tickTables ht (lockRound_writes hN hnotify fun _ _ => hupdate _ _))
  | startRound roundId =>
    exact token_reply (other_lineage tickTables ht (startRound_writes hN hnotify fun _ _ => hupdate _ _))
  | resolveRound roundId =>
    exact token_reply (other_lineage tickTables ht (resolveRound_writes hN hnotify fun _ _ => hupdate _ _))
  | settleRound roundId =>
    exact token_reply (other_lineage _ (by simp) (Writes.imp (fun _ hw => hw.table_mem)
      settleRound_writes))
  | voidRound roundId =>
    exact token_reply (other_lineage _ (by simp) (Writes.imp (fun _ hw => hw.table_mem)
      voidRound_writes))
  | tickGame game => exact token_reply (other_lineage tickTables ht tickGame_writes)

/-- The families as a layer on the books: every call keeps its terms. -/
theorem lineage_layer (config : Config) (crypto : Crypto) :
    Layer database (books config) Lineage TokensMove (program config crypto) (terms config)
      (tokenTerms crypto) fun _ _ _ _ _ => True where
  refl := TokensMove.refl
  trans := TokensMove.trans
  commits _ hs _ h := hs.after h
  draws {_ s row} _ hs hdraws _ := by
    have hdraw : row.isDraw = true := by
      rcases hdraws with rfl | rfl <;> rfl
    exact ⟨hs.of_eq (isDraw_tokens hdraw s), .of_eq (isDraw_tokens hdraw s)⟩
  stable _ _ _ _ _ _ _ _ := trivial
  lost _ _ _ _ := trivial
  start _ c _ _ _ _ _ := call_lineage config crypto c

/-- Every call keeps the books and the lineage of tokens. -/
theorem lineage_verified (config : Config) (crypto : Crypto) :
    Verified database (lineage config) (program config crypto)
      (fun c => (terms config c).upon (tokenTerms crypto c))
      fun _ c r f s => c.answer r f s ∧ True :=
  (system_verified config crypto).upon (lineage_layer config crypto)

/-! ## Along every run -/

/-- A UUID is drawn once: the family that a login or a registration commits is not there yet. -/
def FreshFamilies (w : System) : Event Inputs Call → Prop
  | .run i _ => ∀ t, w.sessions[i]? = some t → t.program.statement = .commit →
      FreshFamily t.call w.db t.standing.pending
  | _ => True

/-- The runs in which no family is started twice. -/
def ReachesFresh (config : Config) (crypto : Crypto) (w : System) : Prop :=
  World.Run database (program config crypto) FreshFamilies ⟨migrated, []⟩ w

/-- All that the terms ask of the circumstances is that new families have ids of their own. -/
theorem admits_fresh {w : System} {e : Event Inputs Call} (h : FreshFamilies w e) :
    Admits (fun c => (terms config c).upon (tokenTerms crypto c)) w e := by
  cases e with
  | start c => exact ⟨trivial, trivial⟩
  | run i x => exact fun t ht => ⟨trivial, h t ht⟩
  | kill i => trivial

/-- There are no tokens at first. -/
theorem migrated_lineage : Lineage migrated :=
  ⟨List.nodup_nil, List.nodup_nil, fun _ => List.forall_mem_nil _, List.forall_mem_nil _⟩

/-- Every state reached with new families is a sound one. -/
theorem reachesFresh_sound {w : System} (h : ReachesFresh config crypto w) :
    w.Sound database (lineage config) (fun c => (terms config c).upon (tokenTerms crypto c))
      fun _ c r f s => c.answer r f s ∧ True :=
  (World.Sound.run (lineage_verified config crypto) (fun _ _ => admits_fresh) h
    (.idle ⟨migrated_consistent config, migrated_lineage⟩)).1

end

end Tessera
