import Tessera.Auth.Succession
import Tessera.Transactions.Dues
import Tessera.Transactions.Executed
import Tessera.Transactions.Henceforth

/-!
# What a revocation reaches

A revocation is one `UPDATE`.  It reaches every token of the family that was there when the call
began, and a token that was revoked is refused from then on.  A token that is inserted while the
`UPDATE` is under way is not among the rows that it has found, and stays as it is.

* `wp_revokeFamily_reaches` — what `revokeFamily` has done when it commits;
* `Innocent` — an answer that does not come from the detection of reuse;
* `Call.Revoking` — what is known of a call that begins after a given state;
* `reachable_revocation` — the same along every run.

Source: `tokens.service.ts` `revokeFamily`; `auth.service.ts` `refresh`, `logout`.
-/

namespace Tessera

open Relational Transactions Transactions.Program

/-- The token is there, and revoked. -/
def Db.Dead (s : Db) (id : Uuid) : Prop := ∃ t, s.token id = some t ∧ t.revokedAt.isSome = true

section
variable {config : Config} {crypto : Crypto} {s s' s₀ : Db} {t : RefreshToken} {id familyId : Uuid}
variable {f f' : Standing Db LockKey Write} {rawToken hash : String} {now : Time}

/-! ## The table -/

/-- A token that is dead stays so. -/
theorem Db.Dead.later (h : s.Dead id) (hs : TokensMove s s') : s'.Dead id := by
  obtain ⟨t, ht, hrevoked⟩ := h
  obtain ⟨t', ht', -, -, hstays⟩ := hs id t ht
  exact ⟨t', ht', hstays hrevoked⟩

/-- A token that was there is there, under the same keys. -/
theorem TokensMove.token (hs : TokensMove s s') (hids : (s.tokens.map RefreshToken.id).Nodup)
    (ht : t ∈ s.tokens) : ∃ t', s'.token t.id = some t' ∧ t'.core = t.core ∧
      (t.revokedAt.isSome = true → t'.revokedAt.isSome = true) := by
  obtain ⟨t', ht', hcore, -, hrevoked⟩ := hs t.id t (lookup_of_mem hids ht)
  exact ⟨t', ht', hcore, hrevoked⟩

/-- What a list of updates revokes. -/
theorem dead_of_updates {rows : List Write} (hs : Lineage s)
    (hrows : ∀ w ∈ rows, ∃ id u, w = .updateToken id u) (hw : .updateToken id (.revoked now) ∈ rows)
    (ht : s.token id = some t) : (database.applyAll s rows).Dead id := by
  induction rows generalizing s t with
  | nil => cases hw
  | cons w rows ih =>
    obtain ⟨⟨id', u, rfl⟩, hrest⟩ := List.forall_mem_cons.1 hrows
    have hnext : Lineage (s.apply (.updateToken id' u)) := hs.update id' u
    rw [Database.applyAll_cons]
    rcases List.mem_cons.1 hw with heq | hw
    · cases heq
      have hself : (s.apply (.updateToken id (.revoked now))).token id =
          some ((TokenUpdate.revoked now).row t) := lookup_modify_self (TokenUpdate.row_id _) ht
      exact Db.Dead.later ⟨_, hself, rfl⟩ (hnext.updates hrest).2
    · obtain ⟨t', ht', -⟩ := TokensMove.update s id' u id t ht
      exact ih hnext hrest hw ht'

/-- Two tokens with one hash are one token. -/
theorem Lineage.eq_of_hash {t' : RefreshToken} (hs : Lineage s) (ht : t ∈ s.tokens)
    (ht' : t' ∈ s.tokens) (h : t.tokenHash = t'.tokenHash) : t = t' :=
  eq_of_key hs.hashes ht ht' h

/-! ## Revoking -/

/-- Every token that was in the family of the token with this hash is revoked. -/
def FamilyDead (s₀ : Db) (hash : String) (s : Db) : Prop :=
  ∀ t ∈ s₀.tokens, t.tokenHash = hash → ∀ u ∈ s₀.tokens, u.familyId = t.familyId → s.Dead u.id

/-- So does a family. -/
theorem FamilyDead.later (h : FamilyDead s₀ hash s) (hs : TokensMove s s') :
    FamilyDead s₀ hash s' :=
  fun t ht hhash u hu hfamily => (h t ht hhash u hu hfamily).later hs

/-- When it commits, a revocation has reached every token that was in the family when it began. -/
theorem wp_revokeFamily_reaches (hs : Lineage s) (hf : f.pending = []) :
    wp database (lineage config).eased .free (revokeFamily familyId) f s fun r f' s' =>
      r = .ok () ∧ ∀ s'', Rely (lineage config).eased f'.held s' s'' →
        ∀ u ∈ s.tokens, u.familyId = familyId → (f'.view database s'').Dead u.id := by
  refine wp_revokeFamily ((lineage_base config).overlay _) hf
    fun f' s' s₁ now hlater h₁ hgrows hrevokes hseen => ⟨rfl, fun s'' hs'' u hu hfamily => ?_⟩
  have hupdates : ∀ w ∈ f'.pending, ∃ id u, w = .updateToken id u := by
    intro w hw
    obtain ⟨t, rfl, -⟩ := hrevokes w hw
    exact ⟨_, _, rfl⟩
  have hlineage : Lineage s'' := hs''.inv.2
  have hview : TokensMove s'' (f'.view database s'') := (hlineage.updates hupdates).2
  have hsince : TokensMove s₁ s'' := hgrows.2.trans hs''.grows.2
  obtain ⟨u₁, hu₁, hcore, -⟩ := TokensMove.token h₁.grows.2 hs.ids hu
  have hid : u₁.id = u.id := lookup_key hu₁
  cases hrevoked : u₁.revokedAt with
  | some at_ =>
    have hdead : s₁.Dead u.id := ⟨u₁, hu₁, by rw [hrevoked]; rfl⟩
    exact hdead.later (hsince.trans hview)
  | none =>
    have hof : u₁.familyId = familyId := (RefreshToken.core_eq hcore).2.2.1.trans hfamily
    obtain ⟨-, hpending | ⟨t, ht, hdead⟩⟩ := hseen u₁ (lookup_mem hu₁) hof hrevoked
    · obtain ⟨u₂, hu₂, -⟩ := hsince u.id u₁ hu₁
      exact dead_of_updates hlineage hupdates (hid ▸ hpending) hu₂
    · have hdead' : s'.Dead u.id := ⟨t, hid ▸ ht, hdead⟩
      exact hdead'.later (hs''.grows.2.trans hview)

/-- The same for a call that began earlier, in the family of a token that it has found. -/
theorem wp_revokeFamily_family {stored : RefreshToken} (hs₀ : Lineage s₀) (hs : Lineage s)
    (hgrows : TokensMove s₀ s) (hf : f.pending = []) (hstored : stored ∈ s.tokens)
    (hhash : stored.tokenHash = hash) :
    wp database (lineage config).eased .free (revokeFamily stored.familyId) f s fun r f' s' =>
      r = .ok () ∧ ∀ s'', Rely (lineage config).eased f'.held s' s'' →
        FamilyDead s₀ hash (f'.view database s'') := by
  refine wp_mono (fun r f' s' hend => ⟨hend.1, fun s'' hs'' t ht hthash u hu hfamily => ?_⟩)
    (wp_revokeFamily_reaches hs hf)
  obtain ⟨t₁, ht₁, htcore, -⟩ := hgrows.token hs₀.ids ht
  obtain ⟨u₁, hu₁, hucore, -⟩ := hgrows.token hs₀.ids hu
  obtain ⟨-, -, htfamily, hthash₁⟩ := RefreshToken.core_eq htcore
  have hsame : t₁ = stored :=
    hs.eq_of_hash (lookup_mem ht₁) hstored (hthash₁.trans (hthash.trans hhash.symm))
  have hof : u₁.familyId = stored.familyId :=
    (RefreshToken.core_eq hucore).2.2.1.trans (hfamily.trans (htfamily.symm.trans (hsame ▸ rfl)))
  have hid : u₁.id = u.id := lookup_key hu₁
  exact hid ▸ hend.2 s'' hs'' u₁ (lookup_mem hu₁) hof

/-- The deferred trigger finds nothing wrong with a token. -/
theorem deferred_ne_reuse {rows : List Write} {e : AppError} (h : Db.deferred s rows = .error e) :
    e ≠ .refreshTokenReuse := by
  induction rows with
  | nil => cases h
  | cons w rows ih =>
    cases w with
    | insertEntry entry =>
      unfold Db.deferred Db.assertTransactionBalanced at h
      split at h
      · exact ih h
      · rename_i hbalanced
        cases h
        rintro rfl
        dsimp only at hbalanced
        split_ifs at hbalanced <;> cases hbalanced
    | _ => exact ih h

/-! ## Where reuse is detected -/

/-- Something other than the detection of reuse. -/
def Innocent {α : Type} (r : Except AppError α) : Prop := r ≠ .error .refreshTokenReuse

section
variable {α β : Type} {h : List (Moment Db Write Inputs)}

/-- A result is no error of reuse. -/
theorem Innocent.ok {a : α} : Innocent (.ok a : Except AppError α) := by
  intro heq
  cases heq

theorem Innocent.error {e : AppError} (he : e ≠ .refreshTokenReuse) :
    Innocent (.error e : Except AppError α) := by
  intro heq
  cases heq
  exact he rfl

/-- Two programs, neither of which detects reuse. -/
theorem Innocent.bind {p : Action α} {k : α → Action β} {Q : Except AppError β → Prop}
    (hp : ∀ {h f}, p.Along database anyCommit h f fun r _ _ => Innocent r)
    (hk : ∀ a h f, (k a).Along database anyCommit h f fun r _ _ => Q r)
    (herror : ∀ e, e ≠ .refreshTokenReuse → Q (.error e)) :
    (p >>= k).Along database anyCommit h f fun r _ _ => Q r := by
  refine Along.bind (hp.mono fun r h f hr => ?_)
  cases r with
  | ok a => exact hk a h f
  | error e => exact herror e fun heq => hr (heq ▸ rfl)

/-- A condition with another error does not detect reuse. -/
theorem innocent_ensure {condition : Bool} {e : AppError} (he : e ≠ .refreshTokenReuse) :
    (ensure condition e : Action Unit).Along database anyCommit h f fun r _ _ => Innocent r := by
  cases condition with
  | true => exact Innocent.ok
  | false => exact Innocent.error he

/-- Nor does a unique constraint. -/
theorem innocent_claim {key : LockKey} {taken : Db → Bool} {constraint : String} :
    (claim key taken constraint).Along database anyCommit h f fun r _ _ => Innocent r :=
  fun _ => innocent_ensure (by simp)

/-- Nor does a foreign key. -/
theorem innocent_assertReference {there : Db → Bool} {constraint : String} :
    (assertReference there constraint).Along database anyCommit h f fun r _ _ => Innocent r :=
  fun _ => innocent_ensure (by simp)

/-- Nor does an `INSERT` of a token. -/
theorem innocent_insertToken :
    (insertToken t).Along database anyCommit h f fun r _ _ => Innocent r := by
  refine Innocent.bind innocent_claim (fun _ h₁ f₁ => ?_) fun _ => Innocent.error
  refine Innocent.bind innocent_claim (fun _ h₂ f₂ => ?_) fun _ => Innocent.error
  exact Innocent.bind Innocent.ok (fun _ h₃ f₃ => innocent_assertReference) fun _ => Innocent.error

/-- Nor does an `UPDATE`. -/
theorem innocent_updateRow {key : β → LockKey} {view : Db → Option β} {change : β → Write} :
    (updateRow key view change : Action ℕ).Along database anyCommit h f fun r _ _ =>
      Innocent r := by
  refine Along.bind (along_selectForLock (fun _ => Innocent.ok) fun s₁ s₂ k => Along.next_ok ?_)
  cases view (f.view database s₂) with
  | none => exact Innocent.ok
  | some row => exact Innocent.ok

/-- An exchange does not detect reuse. -/
theorem rotateToken_innocent : (rotateToken config crypto t).Along database anyCommit h f
    fun r _ _ => Innocent r ∧ r ≠ .ok .reuse := by
  have herror : ∀ e, e ≠ .refreshTokenReuse → Innocent (.error e : Except AppError RefreshOutcome) ∧
      (.error e : Except AppError RefreshOutcome) ≠ .ok .reuse :=
    fun e he => ⟨Innocent.error he, by simp⟩
  refine fun x => Innocent.bind innocent_updateRow (fun _ h₁ f₁ => ?_) herror
  refine Along.bind (along_select fun s₂ => Along.next_ok ?_)
  cases (f₁.view database s₂).user t.userId with
  | none => exact ⟨Innocent.ok, by simp⟩
  | some user =>
    dsimp only
    split
    · exact ⟨Innocent.ok, by simp⟩
    · refine Innocent.bind (fun jti y => ?_) (fun token h₃ f₃ z => ⟨Innocent.ok, by simp⟩) herror
      exact Innocent.bind innocent_insertToken (fun _ _ _ => Innocent.ok) fun _ => Innocent.error

end

/-! ## The calls -/

/-- A token that was revoked is refused. -/
theorem refreshTransaction_refused (hs₀ : Lineage s₀) (hgrows : TokensMove s₀ s)
    (ht : t ∈ s₀.tokens) (hrevoked : t.revokedAt.isSome = true) (hf : f.pending = []) :
    wp database (lineage config).eased .free
      (transaction (refreshTransaction config crypto t.tokenHash)) f s
      fun r _ _ => r = .ok .invalid := by
  have hdead : ∀ s', (lineage config).eased.inv s' → TokensMove s₀ s' → ∀ v ∈ s'.tokens,
      v.tokenHash = t.tokenHash → v.revokedAt.isSome = true := by
    intro s' hs' hgrows' v hv hhash
    obtain ⟨t', ht', hcore, hstays⟩ := hgrows'.token hs₀.ids ht
    have hsame : v = t' := Lineage.eq_of_hash hs'.2 hv (lookup_mem ht')
      (hhash.trans (RefreshToken.core_eq hcore).2.2.2.symm)
    exact hsame ▸ hstays hrevoked
  have hinvalid : ∀ {f' : Standing Db LockKey Write} {s' : Db}, f'.pending = [] →
      (database.deferred (f'.view database s') f'.pending = .ok () →
        True ∧ (.ok .invalid : Except AppError RefreshOutcome) = .ok .invalid) ∧
      ∀ e, database.deferred (f'.view database s') f'.pending = .error e →
        (.error e : Except AppError RefreshOutcome) = .ok .invalid := by
    intro f' s' hpending
    refine ⟨fun _ => ⟨trivial, rfl⟩, fun e he => ?_⟩
    rw [hpending] at he
    cases he
  refine wp_transaction (wp_bind.2 (wp_selectForLock (fun s₁ h₁ _ => ?_)
    (fun _ _ _ _ _ _ => trivial) fun s₁ row h₁ _ s₂ h₂ _ => onValue_ok ?_))
  · exact onValue_ok fun s' _ _ => hinvalid hf
  · have hview : f.view database s₂ = s₂ := view_nil hf s₂
    rw [hview]
    cases hfound : tokenByHash t.tokenHash s₂ with
    | none => exact fun s' _ _ => hinvalid hf
    | some stored =>
      have hstored : stored.revokedAt.isSome = true :=
        hdead s₂ h₂.inv (hgrows.trans (h₁.grows.2.trans h₂.grows.2)) stored
          (List.mem_of_find?_eq_some hfound) (by simpa using List.find?_some hfound)
      dsimp only
      rw [if_pos hstored]
      exact fun s' _ _ => hinvalid hf

/-- Where reuse was detected, the family has been revoked. -/
theorem refreshTransaction_reuse (hash : String) (hs₀ : Lineage s₀) (hgrows : TokensMove s₀ s)
    (hf : f.pending = []) :
    wp database (lineage config).eased .free (transaction (refreshTransaction config crypto hash))
      f s fun r _ s' => Innocent r ∧ (r = .ok .reuse → FamilyDead s₀ hash s') := by
  -- what the block ends with, before its commit
  have hblock : wp database (lineage config).eased .free (refreshTransaction config crypto hash) f s
      fun r f' s' => Innocent r ∧ (r = .ok .reuse → ∀ s'',
        Rely (lineage config).eased f'.held s' s'' →
          FamilyDead s₀ hash (f'.view database s'')) := by
    refine wp_bind.2 (wp_selectForLock (fun s₁ h₁ _ => onValue_ok ⟨Innocent.ok, by simp⟩)
      (fun _ _ _ _ _ _ => trivial) fun s₁ row h₁ _ s₂ h₂ _ => onValue_ok ?_)
    have hview : f.view database s₂ = s₂ := view_nil hf s₂
    rw [hview]
    cases hfound : tokenByHash hash s₂ with
    | none => exact ⟨Innocent.ok, by simp⟩
    | some stored =>
      dsimp only
      split
      · exact ⟨Innocent.ok, by simp⟩
      refine wp_bind.2 (wp_read fun x => onValue_ok ?_)
      split
      · exact ⟨Innocent.ok, by simp⟩
      split
      · have hmoves : TokensMove s₀ s₂ := hgrows.trans (h₁.grows.2.trans h₂.grows.2)
        refine wp_bind.2 (wp_mono (fun r f' s' hend => ?_)
          (wp_revokeFamily_family hs₀ h₂.inv.2 hmoves hf (List.mem_of_find?_eq_some hfound)
            (by simpa using List.find?_some hfound)))
        obtain ⟨rfl, hreached⟩ := hend
        exact onValue_ok ⟨Innocent.ok, fun _ => hreached⟩
      · refine wp_mono (fun r f' s' hend => ⟨hend.1, fun heq => absurd heq hend.2⟩)
          (wp_of_along (h := []) rotateToken_innocent)
  refine wp_transaction (wp_mono (fun r f' s' hend => ?_) hblock)
  cases r with
  | error e => exact fun s'' _ => ⟨hend.1, by simp⟩
  | ok outcome =>
    refine fun s'' hs'' _ => ⟨fun _ => ⟨trivial, Innocent.ok, fun heq => ?_⟩, fun e he => ?_⟩
    · cases heq
      exact hend.2 rfl s'' hs''
    · exact ⟨Innocent.error (deferred_ne_reuse he), by simp⟩

/-- What is known of a call that begins after the state `s₀`. -/
structure Call.Revoking (crypto : Crypto) (s₀ : Db) (c : Call) (r : Except AppError Reply)
    (s : Db) : Prop where
  /-- It has detected reuse. -/
  detected : ∀ rawToken, c = .refresh rawToken → r = .error .refreshTokenReuse →
    FamilyDead s₀ (hashToken crypto rawToken) s
  /-- It has logged out. -/
  left : ∀ rawToken reply, c = .logout rawToken → r = .ok reply →
    FamilyDead s₀ (hashToken crypto rawToken) s
  /-- It presents a token that was revoked. -/
  refused : ∀ rawToken, c = .refresh rawToken → ∀ t ∈ s₀.tokens,
    t.tokenHash = hashToken crypto rawToken → t.revokedAt.isSome = true →
      r = .error .invalidRefreshToken ∨ r = .error .connectionLost

/-- A refresh that detects reuse has revoked the family of its token. -/
theorem refresh_revoking (hs₀ : Lineage s₀) (hgrows : TokensMove s₀ s) :
    wp database (lineage config).eased .free (Reply.auth <$> refresh config crypto rawToken) {} s
      fun r _ s' => Call.Revoking crypto s₀ (.refresh rawToken) r s' := by
  have hdetected : wp database (lineage config).eased .free
      (Reply.auth <$> refresh config crypto rawToken) {} s fun r _ s' =>
        r = .error .refreshTokenReuse → FamilyDead s₀ (hashToken crypto rawToken) s' := by
    refine wp_map (wp_bind.2 (wp_read fun x => onValue_ok ?_))
    split
    · exact fun heq => by cases heq
    · refine wp_bind.2 (wp_mono (fun r f' s' hend => ?_)
        (refreshTransaction_reuse (hashToken crypto rawToken) hs₀ hgrows rfl))
      rcases r with e | result | _ | _
      · exact fun heq => absurd (by cases heq; rfl) hend.1
      · exact fun heq => by cases heq
      · exact fun heq => by cases heq
      · exact fun _ => hend.2 rfl
  have hrefused : wp database (lineage config).eased .free
      (Reply.auth <$> refresh config crypto rawToken) {} s fun r _ _ => ∀ t ∈ s₀.tokens,
        t.tokenHash = hashToken crypto rawToken → t.revokedAt.isSome = true →
          r = .error .invalidRefreshToken := by
    by_cases hthere : ∃ t ∈ s₀.tokens, t.tokenHash = hashToken crypto rawToken ∧
        t.revokedAt.isSome = true
    · obtain ⟨t, ht, hhash, hrevoked⟩ := hthere
      refine wp_map (wp_bind.2 (wp_read fun x => onValue_ok ?_))
      split
      · exact fun _ _ _ _ => rfl
      · rw [← hhash]
        refine wp_bind.2 (wp_mono (fun r f' s' hend => ?_)
          (refreshTransaction_refused hs₀ hgrows ht hrevoked rfl))
        subst hend
        exact fun _ _ _ _ => rfl
    · exact wp_mono (fun r f' s' _ t ht hhash hrevoked => absurd ⟨t, ht, hhash, hrevoked⟩ hthere)
        wp_anything
  refine wp_mono (fun r f' s' hend => ⟨?_, ?_, ?_⟩) (wp_and hdetected hrefused)
  · rintro raw ⟨⟩ hr
    exact hend.1 hr
  · rintro raw reply ⟨⟩
  · rintro raw ⟨⟩ t ht hhash hrevoked
    exact .inl (hend.2 t ht hhash hrevoked)

/-- A logout has revoked the family of its token. -/
theorem logout_revoking (hs₀ : Lineage s₀) (hgrows : TokensMove s₀ s) :
    wp database (lineage config).eased .free
      ((fun _ => Reply.none) <$> logout crypto rawToken : Action Reply) {} s
      fun r _ s' => Call.Revoking crypto s₀ (.logout rawToken) r s' := by
  have hleft : wp database (lineage config).eased .free (logout crypto rawToken) {} s
      fun r _ s' => r = .ok () → FamilyDead s₀ (hashToken crypto rawToken) s' := by
    refine wp_bind.2 (wp_select fun s₁ h₁ => onValue_ok ?_)
    have hmoves : TokensMove s₀ s₁ := hgrows.trans h₁.grows.2
    have hlineage : Lineage s₁ := h₁.inv.2
    rw [view_nil rfl]
    cases hfound : tokenByHash (hashToken crypto rawToken) s₁ with
    | none =>
      intro _ t ht hhash
      obtain ⟨t', ht', hcore, -⟩ := hmoves.token hs₀.ids ht
      have hnone := List.find?_eq_none.1 hfound t' (lookup_mem ht')
      exact absurd ((RefreshToken.core_eq hcore).2.2.2.trans hhash) (by simpa using hnone)
    | some stored =>
      refine wp_transaction (wp_mono (fun r f' s' hend => ?_) (wp_revokeFamily_family hs₀ hlineage
        hmoves rfl (List.mem_of_find?_eq_some hfound) (by simpa using List.find?_some hfound)))
      obtain ⟨rfl, hreached⟩ := hend
      exact fun s'' hs'' _ => ⟨fun _ => ⟨trivial, fun _ => hreached s'' hs''⟩, fun e _ => by simp⟩
  refine wp_map (wp_mono (fun r f' s' hend => ⟨?_, ?_, ?_⟩) hleft)
  · rintro raw ⟨⟩
  · rintro raw reply ⟨⟩ hr
    cases r with
    | error e => cases hr
    | ok _ => exact hend rfl
  · rintro raw ⟨⟩

/-- Every call that begins after a state that is reached. -/
theorem call_revoking (hs₀ : Lineage s₀) (hgrows : TokensMove s₀ s) (c : Call) :
    wp database (lineage config).eased .free (program config crypto c) {} s
      fun r _ s' => Call.Revoking crypto s₀ c r s' := by
  by_cases hrefresh : ∃ rawToken, c = .refresh rawToken
  · obtain ⟨rawToken, rfl⟩ := hrefresh
    exact refresh_revoking hs₀ hgrows
  by_cases hlogout : ∃ rawToken, c = .logout rawToken
  · obtain ⟨rawToken, rfl⟩ := hlogout
    exact logout_revoking hs₀ hgrows
  exact wp_mono (fun r f' s' _ => ⟨fun raw hc => absurd ⟨raw, hc⟩ hrefresh,
    fun raw _ hc => absurd ⟨raw, hc⟩ hlogout, fun raw hc => absurd ⟨raw, hc⟩ hrefresh⟩)
    wp_anything

/-- What the calls that begin after `w` answer with. -/
theorem ReachesFresh.revoking {w w' : System} (hw : ReachesFresh config crypto w)
    (hr : World.Run database (program config crypto) FreshFamilies w w') {i : ℕ} {c : Client}
    (hi : w.sessions.length ≤ i) (hc : w'.sessions[i]? = some c) {r : Except AppError Reply}
    (hanswer : c.answer = some r) : Call.Revoking crypto w.db c.call r w'.db := by
  have hsound := reachesFresh_sound hw
  have hlost : ∀ c s, Call.Revoking crypto w.db c (.error .connectionLost) s := by
    refine fun c s => ⟨fun raw _ he => ?_, fun raw _ _ he => ?_, fun _ _ _ _ _ _ => .inr rfl⟩
    · cases he
    · cases he
  have hsafe := World.Sound.since (lineage_verified config crypto) (fun _ _ => admits_fresh) hsound
    (Q := fun c r _ s => Call.Revoking crypto w.db c r s)
    (fun c r f s s' hs h => ⟨fun raw hc he => (h.detected raw hc he).later hs.grows.2,
      fun raw reply hc he => (h.left raw reply hc he).later hs.grows.2, h.refused⟩)
    (fun c f s => hlost c s)
    (fun c s _ hgrows => call_revoking hsound.inv.2 hgrows.2 c) hr hi hc
  rw [Session.answer_eq_some.1 hanswer] at hsafe
  exact hsafe

/-- A revocation reaches every token of the family that was there when its call began: a refresh
that began after `w` and has detected reuse, and a logout that began after `w` and has answered,
have revoked every token that was in the family in `w`.  Whoever presents, in a call that begins
after `w`, a token that is revoked in `w` is refused, unless the connection is lost.

The token `t` that is presented is in the table in `w`: a token that is issued only afterwards says
nothing about its family in `w`, and a logout ignores a text that is no token. -/
theorem reachable_revocation {w w' : System} (hw : ReachesFresh config crypto w)
    (hr : World.Run database (program config crypto) FreshFamilies w w') {i : ℕ} {c : Client}
    {r : Except AppError Reply} (hi : w.sessions.length ≤ i) (hc : w'.sessions[i]? = some c)
    (hanswer : c.answer = some r) {t : RefreshToken} (ht : t ∈ w.db.tokens) {rawToken : String}
    (hhash : t.tokenHash = hashToken crypto rawToken) :
    (c.call = .refresh rawToken ∧ r = .error .refreshTokenReuse ∨
        c.call = .logout rawToken ∧ r.toOption.isSome = true →
      ∀ u ∈ w.db.tokens, u.familyId = t.familyId → w'.db.Dead u.id) ∧
    (c.call = .refresh rawToken → t.revokedAt.isSome = true →
      r = .error .invalidRefreshToken ∨ r = .error .connectionLost) := by
  have hrevoking := hw.revoking hr hi hc hanswer
  refine ⟨?_, fun hcall hrevoked => hrevoking.refused rawToken hcall t ht hhash hrevoked⟩
  rintro (⟨hcall, hreuse⟩ | ⟨hcall, hok⟩)
  · exact hrevoking.detected rawToken hcall hreuse t ht hhash
  · cases r with
    | error e => cases hok
    | ok reply => exact hrevoking.left rawToken reply hcall rfl t ht hhash

end

/-! ## A token that is inserted meanwhile -/

/-- The token that the first exchange hands out. -/
def secondToken : String := String.ofList (List.replicate 59 't')

/-- The token that the second exchange hands out. -/
def thirdToken : String := String.ofList (List.replicate 89 't')

/-- A token is exchanged, and the exchange of its successor is under way. -/
def underWay : List (Event Inputs Call) :=
  .start (.register ⟨"ann", "Ann", "secret"⟩) :: turns 0 50 0 ++
  .start (.refresh firstToken) :: turns 1 20 50 5 ++
  .start (.refresh secondToken) :: turns 2 10 80 6

/-- The first token is presented again, and its family is revoked while the exchange ends; then
the token that the exchange has handed out is presented. -/
def survivor : System :=
  World.attemptWhere database (program smallConfig plainCrypto) checkFresh (executedFresh underWay)
    (.start (.refresh firstToken) :: turns 3 20 120 7 ++ turns 2 20 150 8 ++ turns 3 20 180 9 ++
      .start (.refresh thirdToken) :: turns 4 20 200 10)

/-- The two tokens that were there are revoked; the third was inserted meanwhile, and is
exchanged. -/
theorem reachable_revocation_survivor :
    (survivor.db.tokens.map fun t => t.revokedAt.isSome) = [true, true, false, false] ∧
    (survivor.sessions.map fun c => c.answer.map fun r => r.toOption.isSome) =
      [some true, some true, some true, some false, some true] ∧
    ∃ t ∈ (executedFresh underWay).db.tokens, t.tokenHash = hashToken plainCrypto firstToken ∧
      ∀ u ∈ (executedFresh underWay).db.tokens, u.familyId = t.familyId →
        survivor.db.Dead u.id := by
  have hrun : World.Run database (program smallConfig plainCrypto) FreshFamilies
      (executedFresh underWay) survivor :=
    World.Run.attemptWhere checkFresh_sound (.refl _) _
  have htoken : ((executedFresh underWay).db.tokens.find? fun t =>
      t.tokenHash == hashToken plainCrypto firstToken).isSome = true := by decide +kernel
  have hsession : (survivor.sessions[3]?.any fun c => decide (c.call = .refresh firstToken) &&
      decide (c.answer = some (.error .refreshTokenReuse))) = true := by decide +kernel
  obtain ⟨t, ht⟩ := Option.isSome_iff_exists.1 htoken
  have hmem := List.mem_of_find?_eq_some ht
  have hhash : t.tokenHash = hashToken plainCrypto firstToken := by simpa using List.find?_some ht
  obtain ⟨c, hc, hcond⟩ := (Option.any_eq_true _ _).1 hsession
  obtain ⟨hcall, hanswer⟩ := Bool.and_eq_true_iff.1 hcond
  have hlater : (executedFresh underWay).sessions.length ≤ 3 := by decide +kernel
  exact ⟨by decide +kernel, by decide +kernel, t, hmem, hhash,
    (reachable_revocation (reachesFresh_executed underWay) hrun hlater hc
      (of_decide_eq_true hanswer) hmem hhash).1 (.inl ⟨of_decide_eq_true hcall, rfl⟩)⟩

end Tessera
