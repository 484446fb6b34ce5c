import Tessera.Calls
import Tessera.Database.Parts

/-!
# The lineage of refresh tokens

The abstract layer over `refresh_tokens`: a transaction starts a family with one token, exchanges
the last token of a family for a successor, spends it without one, or revokes some.  A family is
then a single chain of succession, in the order of its rows.

* `TokenChange` — what one transaction of a call does to the table;
* `Lineage` — in every family each token but the last is spent;
* `TokensMove` — how the table may change along a run;
* `Exchanges`, `TokensStep` — how it may change in one step;
* `Lineage.after`, `TokenChange.step` — every change keeps the lineage, and is such a step.

Source: `auth.service.ts` `refresh`, `logout`; `tokens.service.ts` `issueRefreshToken`,
`revokeFamily`.
-/

namespace Tessera

open Relational Transactions

/-- The tokens of a family, oldest first. -/
def Db.family (s : Db) (familyId : Uuid) : List RefreshToken :=
  s.tokens.filter fun t => t.familyId == familyId

/-- The calls that start a family. -/
def Call.opensFamily : Call → Bool
  | .register _ | .login _ => true
  | _ => false

/-- The key of a new token is not taken. -/
structure NewToken (s : Db) (t : RefreshToken) : Prop where
  id : s.token t.id = none
  hash : ∀ u ∈ s.tokens, u.tokenHash ≠ t.tokenHash
  unspent : t.usedAt = none
  unrevoked : t.revokedAt = none

/-- What one transaction of a call does to the table. -/
inductive TokenChange (crypto : Crypto) (c : Call) (s : Db) : List Write → Prop
  | none : TokenChange crypto c s []
  /-- A login starts a family. -/
  | issued {t : RefreshToken} (opens : c.opensFamily = true) (new : NewToken s t)
      (fresh : ∀ u ∈ s.tokens, u.familyId ≠ t.familyId) :
      TokenChange crypto c s [.insertToken t]
  /-- The token presented is exchanged for a successor. -/
  | rotated {rawToken : String} {t t' : RefreshToken} {now : Time} (call : c = .refresh rawToken)
      (presented : t.tokenHash = hashToken crypto rawToken) (row : s.token t.id = some t)
      (unspent : t.usedAt = Option.none) (unrevoked : t.revokedAt = Option.none)
      (new : NewToken s t') (family : t'.familyId = t.familyId) (user : t'.userId = t.userId) :
      TokenChange crypto c s [.updateToken t.id (.used now), .insertToken t']
  /-- The token presented is spent, its user being suspended. -/
  | spent {rawToken : String} {t : RefreshToken} {now : Time} (call : c = .refresh rawToken)
      (presented : t.tokenHash = hashToken crypto rawToken) (row : s.token t.id = some t)
      (unspent : t.usedAt = Option.none) (unrevoked : t.revokedAt = Option.none) :
      TokenChange crypto c s [.updateToken t.id (.used now)]
  /-- Tokens of a family are revoked. -/
  | revoked {rows : List Write} {familyId : Uuid} {now : Time}
      (each : ∀ w ∈ rows, ∃ t, w = .updateToken t.id (.revoked now) ∧ s.token t.id = some t ∧
        t.familyId = familyId) : TokenChange crypto c s rows

/-- In every family each token but the last is spent, and all belong to one user. -/
structure Lineage (s : Db) : Prop where
  ids : (s.tokens.map RefreshToken.id).Nodup
  hashes : (s.tokens.map RefreshToken.tokenHash).Nodup
  spent : ∀ familyId, ∀ t ∈ (s.family familyId).dropLast, t.usedAt.isSome = true
  user : ∀ t ∈ s.tokens, ∀ u ∈ s.tokens, t.familyId = u.familyId → t.userId = u.userId

/-- How the table may have changed along a run: what is spent or revoked stays so. -/
def TokensMove (s s' : Db) : Prop :=
  ∀ id t, s.token id = some t → ∃ t', s'.token id = some t' ∧ t'.core = t.core ∧
    (t.usedAt.isSome = true → t'.usedAt.isSome = true) ∧
    (t.revokedAt.isSome = true → t'.revokedAt.isSome = true)

/-- A token is exchanged for a successor: it is marked as used, one token is added to the same
family and user, and nothing else happens to the table. -/
structure Exchanges (s s' : Db) (t t' : RefreshToken) : Prop where
  row : s.token t.id = some t
  unspent : t.usedAt = none
  unrevoked : t.revokedAt = none
  new : NewToken s t'
  family : t'.familyId = t.familyId
  user : t'.userId = t.userId
  after : ∃ now, s'.tokens =
    modify RefreshToken.id s.tokens t.id (TokenUpdate.row (.used now)) ++ [t']

/-- How the table may have changed in one step. -/
inductive TokensStep (s s' : Db) : Prop
  /-- No token is added. -/
  | same (cores : s'.tokens.map RefreshToken.core = s.tokens.map RefreshToken.core)
  /-- A family is started. -/
  | started {t : RefreshToken} (fresh : ∀ u ∈ s.tokens, u.familyId ≠ t.familyId)
      (after : s'.tokens = s.tokens ++ [t])
  /-- The last token of a family is exchanged. -/
  | exchanged {t t' : RefreshToken} (exchange : Exchanges s s' t t')

section
variable {crypto : Crypto} {c : Call} {s s' s'' : Db} {t t' : RefreshToken} {rows : List Write}
variable {id familyId : Uuid} {u : TokenUpdate}

/-! ## Single rows -/

/-- The tokens may stay as they are. -/
theorem TokensMove.refl (s : Db) : TokensMove s s :=
  fun _ t h => ⟨t, h, rfl, fun h => h, fun h => h⟩

/-- The tokens may change twice. -/
theorem TokensMove.trans (h : TokensMove s s') (h' : TokensMove s' s'') : TokensMove s s'' := by
  intro id t ht
  obtain ⟨t', ht', hcore, hused, hrevoked⟩ := h id t ht
  obtain ⟨t'', ht'', hcore', hused', hrevoked'⟩ := h' id t' ht'
  exact ⟨t'', ht'', hcore'.trans hcore, fun h => hused' (hused h), fun h => hrevoked' (hrevoked h)⟩

/-- A state with the same tokens has changed none. -/
theorem TokensMove.of_eq (h : s'.tokens = s.tokens) : TokensMove s s' := by
  intro id t ht
  refine ⟨t, ?_, rfl, fun h => h, fun h => h⟩
  unfold Db.token at ht ⊢
  rwa [h]

/-- The families depend on the tokens only. -/
theorem Lineage.of_eq (hs : Lineage s) (h : s'.tokens = s.tokens) : Lineage s' := by
  refine ⟨?_, ?_, ?_, ?_⟩
  · rw [h]
    exact hs.ids
  · rw [h]
    exact hs.hashes
  · unfold Db.family
    rw [h]
    exact hs.spent
  · rw [h]
    exact hs.user

/-- A token never leaves its family. -/
theorem TokenUpdate.row_familyId (u : TokenUpdate) (t : RefreshToken) :
    (u.row t).familyId = t.familyId := by
  cases u <;> rfl

/-- An update never takes anything back. -/
theorem TokenUpdate.row_usedAt (u : TokenUpdate) (h : t.usedAt.isSome = true) :
    (u.row t).usedAt.isSome = true := by
  cases u with
  | used at_ => rfl
  | revoked at_ => exact h

/-- A token that is revoked is never restored. -/
theorem TokenUpdate.row_revokedAt (u : TokenUpdate) (h : t.revokedAt.isSome = true) :
    (u.row t).revokedAt.isSome = true := by
  cases u with
  | used at_ => exact h
  | revoked at_ => rfl

/-- The family after an update of one token. -/
theorem family_update (s : Db) (id : Uuid) (u : TokenUpdate) (familyId : Uuid) :
    (s.apply (.updateToken id u)).family familyId =
      modify RefreshToken.id (s.family familyId) id u.row := by
  have hfamily : ∀ t, ((u.row t).familyId == familyId) = (t.familyId == familyId) := by
    intro t
    rw [u.row_familyId]
  exact filter_modify hfamily

/-- A new token is the last of its family. -/
theorem family_insert (s : Db) (t : RefreshToken) (familyId : Uuid) :
    (s.apply (.insertToken t)).family familyId =
      s.family familyId ++ if t.familyId = familyId then [t] else [] := by
  change (s.tokens ++ [t]).filter _ = _
  rw [List.filter_append]
  by_cases h : t.familyId = familyId
  · simp [Db.family, h]
  · simp [Db.family, h]

/-! ## Updates and insertions -/

/-- A row after an update, and the row before it. -/
theorem mem_update {t : RefreshToken} (ht : t ∈ (s.apply (.updateToken id u)).tokens) :
    ∃ t₀ ∈ s.tokens, t.core = t₀.core ∧ (t₀.usedAt.isSome = true → t.usedAt.isSome = true) ∧
      (t = u.row t₀ ∨ (t₀.id ≠ id ∧ t = t₀)) := by
  obtain ⟨t₀, ht₀, ⟨-, rfl⟩ | ⟨hid, rfl⟩⟩ := mem_modify ht
  · exact ⟨t₀, ht₀, TokenUpdate.row_core u t₀, u.row_usedAt, .inl rfl⟩
  · exact ⟨t, ht₀, rfl, fun h => h, .inr ⟨hid, rfl⟩⟩

/-- The id, the owner, the family and the hash of a token are among its fixed columns. -/
theorem RefreshToken.core_eq {t t' : RefreshToken} (h : t'.core = t.core) :
    t'.id = t.id ∧ t'.userId = t.userId ∧ t'.familyId = t.familyId ∧
      t'.tokenHash = t.tokenHash := by
  have hid : t'.core.id = t.core.id := congrArg RefreshToken.id h
  have huser : t'.core.userId = t.core.userId := congrArg RefreshToken.userId h
  have hfamily : t'.core.familyId = t.core.familyId := congrArg RefreshToken.familyId h
  have hhash : t'.core.tokenHash = t.core.tokenHash := congrArg RefreshToken.tokenHash h
  exact ⟨hid, huser, hfamily, hhash⟩

/-- Every update of a token keeps the families in order. -/
theorem Lineage.update (hs : Lineage s) (id : Uuid) (u : TokenUpdate) :
    Lineage (s.apply (.updateToken id u)) where
  ids := by
    change ((modify RefreshToken.id s.tokens id u.row).map RefreshToken.id).Nodup
    rw [map_key_modify (TokenUpdate.row_id u)]
    exact hs.ids
  hashes := by
    change ((modify RefreshToken.id s.tokens id u.row).map RefreshToken.tokenHash).Nodup
    rw [map_modify (TokenUpdate.row_tokenHash u)]
    exact hs.hashes
  spent familyId t ht := by
    rw [family_update] at ht
    unfold Relational.modify at ht
    rw [← List.map_dropLast] at ht
    obtain ⟨t₀, ht₀, rfl⟩ := List.mem_map.1 ht
    have hspent := hs.spent familyId t₀ ht₀
    split
    · exact u.row_usedAt hspent
    · exact hspent
  user t ht t' ht' hfamily := by
    obtain ⟨t₀, ht₀, hcore, -, -⟩ := mem_update ht
    obtain ⟨t₁, ht₁, hcore', -, -⟩ := mem_update ht'
    obtain ⟨-, huser, hof, -⟩ := RefreshToken.core_eq hcore
    obtain ⟨-, huser', hof', -⟩ := RefreshToken.core_eq hcore'
    rw [huser, huser']
    exact hs.user _ ht₀ _ ht₁ (hof.symm.trans (hfamily.trans hof'))

/-- An update spends or revokes, and changes nothing else. -/
theorem TokensMove.update (s : Db) (id : Uuid) (u : TokenUpdate) :
    TokensMove s (s.apply (.updateToken id u)) := by
  intro id' t ht
  by_cases hid : id' = id
  · subst hid
    exact ⟨u.row t, lookup_modify_self (TokenUpdate.row_id u) ht, TokenUpdate.row_core u t,
      u.row_usedAt, u.row_revokedAt⟩
  · exact ⟨t, (lookup_modify_ne (TokenUpdate.row_id u) hid).trans ht, rfl, fun h => h, fun h => h⟩

/-- A new token changes no old one. -/
theorem TokensMove.insert (s : Db) (t : RefreshToken) :
    TokensMove s (s.apply (.insertToken t)) :=
  fun _ t' ht' => ⟨t', lookup_append_of_some ht' [t], rfl, fun h => h, fun h => h⟩

/-- A token can be added to a family when all of it is spent. -/
theorem Lineage.insert (hs : Lineage s) (hid : s.token t.id = none)
    (hhash : ∀ u ∈ s.tokens, u.tokenHash ≠ t.tokenHash)
    (hspent : ∀ u ∈ s.tokens, u.familyId = t.familyId → u.usedAt.isSome = true)
    (huser : ∀ u ∈ s.tokens, u.familyId = t.familyId → u.userId = t.userId) :
    Lineage (s.apply (.insertToken t)) where
  ids := nodup_insert hs.ids hid
  hashes := nodup_insert hs.hashes (lookup_eq_none.2 hhash)
  spent familyId u hu := by
    rw [family_insert] at hu
    by_cases hfamily : t.familyId = familyId
    · rw [if_pos hfamily, List.dropLast_concat] at hu
      obtain ⟨hmem, hof⟩ := List.mem_filter.1 hu
      exact hspent u hmem ((by simpa using hof : u.familyId = familyId).trans hfamily.symm)
    · rw [if_neg hfamily, List.append_nil] at hu
      exact hs.spent familyId u hu
  user u hu v hv hfamily := by
    rcases List.mem_append.1 hu with hu | hu <;> rcases List.mem_append.1 hv with hv | hv
    · exact hs.user u hu v hv hfamily
    · rw [List.mem_singleton.1 hv] at hfamily ⊢
      exact huser u hu hfamily
    · rw [List.mem_singleton.1 hu] at hfamily ⊢
      exact (huser v hv hfamily.symm).symm
    · rw [List.mem_singleton.1 hu, List.mem_singleton.1 hv]

/-- The token of a family that is not spent is the last one. -/
theorem Lineage.last (hs : Lineage s) (ht : t ∈ s.tokens) (hunspent : t.usedAt = none) :
    (s.family t.familyId).getLast? = some t := by
  have hmem : t ∈ s.family t.familyId := List.mem_filter.2 ⟨ht, by simp⟩
  rcases List.eq_nil_or_concat (s.family t.familyId) with hnil | ⟨before, last, hconcat⟩
  · rw [hnil] at hmem
    cases hmem
  · rw [List.concat_eq_append] at hconcat
    have hspent := hs.spent t.familyId t
    rw [hconcat, List.dropLast_concat] at hspent
    rw [hconcat] at hmem
    rcases List.mem_append.1 hmem with hmem | hmem
    · have hused := hspent hmem
      rw [hunspent] at hused
      cases hused
    · rw [hconcat, List.mem_singleton.1 hmem]
      simp

/-- At most one token of a family is not spent. -/
theorem Lineage.single (hs : Lineage s) (ht : t ∈ s.tokens) (ht' : t' ∈ s.tokens)
    (hfamily : t.familyId = t'.familyId) (hunspent : t.usedAt = none)
    (hunspent' : t'.usedAt = none) : t = t' := by
  have hlast := hs.last ht hunspent
  rw [hfamily, hs.last ht' hunspent'] at hlast
  exact (Option.some.inj hlast).symm

/-! ## Every change -/

/-- Several updates keep the families in order. -/
theorem Lineage.updates (hs : Lineage s) (h : ∀ w ∈ rows, ∃ id u, w = .updateToken id u) :
    Lineage (database.applyAll s rows) ∧ TokensMove s (database.applyAll s rows) := by
  induction rows generalizing s with
  | nil => exact ⟨hs, .refl s⟩
  | cons w rows ih =>
    obtain ⟨⟨id, u, rfl⟩, hrest⟩ := List.forall_mem_cons.1 h
    obtain ⟨hlineage, hmove⟩ := ih (hs.update id u) hrest
    exact ⟨hlineage, (TokensMove.update s id u).trans hmove⟩

/-- Updates change no key. -/
theorem updates_core (h : ∀ w ∈ rows, ∃ id u, w = .updateToken id u) :
    (database.applyAll s rows).tokens.map RefreshToken.core = s.tokens.map RefreshToken.core := by
  induction rows generalizing s with
  | nil => rfl
  | cons w rows ih =>
    obtain ⟨⟨id, u, rfl⟩, hrest⟩ := List.forall_mem_cons.1 h
    rw [Database.applyAll_cons, ih hrest]
    exact map_modify (TokenUpdate.row_core u)

/-- The token that is exchanged, spent, and all of its family with it. -/
theorem Lineage.exchange (hs : Lineage s) (hrow : s.token t.id = some t)
    (hunspent : t.usedAt = none) (now : Time) :
    ∀ v ∈ (s.apply (.updateToken t.id (.used now))).tokens, v.familyId = t.familyId →
      v.usedAt.isSome = true := by
  intro v hv hfamily
  obtain ⟨v₀, hv₀, -, -, rfl | ⟨hid, rfl⟩⟩ := mem_update hv
  · rfl
  · by_contra hused
    have hnone : v.usedAt = none := by simpa using hused
    exact hid (congrArg RefreshToken.id (hs.single hv₀ (lookup_mem hrow) hfamily hnone hunspent))

/-- Every change keeps the lineage. -/
theorem Lineage.after (hs : Lineage s) (h : TokenChange crypto c s (rowsOn .tokens rows)) :
    Lineage (database.applyAll s rows) ∧ TokensMove s (database.applyAll s rows) := by
  have htokens := applyAll_tokens s rows
  have hchange : Lineage (database.applyAll s (rowsOn .tokens rows)) ∧
      TokensMove s (database.applyAll s (rowsOn .tokens rows)) := by
    generalize rowsOn .tokens rows = changed at h
    cases h with
    | none => exact ⟨hs, .refl s⟩
    | issued hopens hnew hfresh =>
      exact ⟨hs.insert hnew.id hnew.hash (fun u hu hfamily => absurd hfamily (hfresh u hu))
        fun u hu hfamily => absurd hfamily (hfresh u hu), .insert s _⟩
    | @rotated rawToken t t' now hcall hpresented hrow hunspent hunrevoked hnew hfamily huser =>
      refine ⟨(hs.update t.id (.used now)).insert (lookup_eq_none.2 fun v hv => ?_)
        (fun v hv => ?_) (fun v hv hsame => ?_) fun v hv hsame => ?_,
        (TokensMove.update s _ _).trans (.insert _ _)⟩
      · obtain ⟨v₀, hv₀, hcore, -, -⟩ := mem_update hv
        rw [(RefreshToken.core_eq hcore).1]
        exact lookup_eq_none.1 hnew.id _ hv₀
      · obtain ⟨v₀, hv₀, hcore, -, -⟩ := mem_update hv
        rw [(RefreshToken.core_eq hcore).2.2.2]
        exact hnew.hash _ hv₀
      · exact hs.exchange hrow hunspent now v hv (hsame.trans hfamily)
      · obtain ⟨v₀, hv₀, hcore, -, -⟩ := mem_update hv
        obtain ⟨-, huser', hof, -⟩ := RefreshToken.core_eq hcore
        rw [huser', huser]
        exact hs.user _ hv₀ _ (lookup_mem hrow) (hof.symm.trans (hsame.trans hfamily))
    | spent => exact ⟨hs.update _ _, .update s _ _⟩
    | revoked each =>
      refine hs.updates fun w hw => ?_
      obtain ⟨t, hw', -⟩ := each w hw
      exact ⟨_, _, hw'⟩
  exact ⟨hchange.1.of_eq htokens, hchange.2.trans (.of_eq htokens)⟩

/-- Every change is one step of the table. -/
theorem TokenChange.step (h : TokenChange crypto c s (rowsOn .tokens rows)) :
    TokensStep s (database.applyAll s rows) := by
  have htokens := applyAll_tokens s rows
  generalize rowsOn .tokens rows = changed at h htokens
  cases h with
  | none =>
    refine .same ?_
    rw [htokens]
    rfl
  | issued hopens hnew hfresh => exact .started hfresh htokens
  | rotated hcall hpresented hrow hunspent hunrevoked hnew hfamily huser =>
    exact .exchanged ⟨hrow, hunspent, hunrevoked, hnew, hfamily, huser, _, htokens⟩
  | spent =>
    refine .same ?_
    rw [htokens]
    exact updates_core fun w hw => ⟨_, _, List.mem_singleton.1 hw⟩
  | revoked each =>
    refine .same ?_
    rw [htokens]
    refine updates_core fun w hw => ?_
    obtain ⟨t, hw', -⟩ := each w hw
    exact ⟨_, _, hw'⟩

/-- A refresh that adds a token has exchanged the one it presented. -/
theorem TokenChange.exchange {rawToken : String}
    (h : TokenChange crypto (.refresh rawToken) s (rowsOn .tokens rows))
    (ht' : .insertToken t' ∈ rows) :
    ∃ t, Exchanges s (database.applyAll s rows) t t' ∧
      t.tokenHash = hashToken crypto rawToken := by
  have htokens := applyAll_tokens s rows
  have hmem : .insertToken t' ∈ rowsOn .tokens rows := List.mem_filter.2 ⟨ht', rfl⟩
  generalize rowsOn .tokens rows = changed at h htokens hmem
  cases h with
  | none => cases hmem
  | issued hopens => cases hopens
  | @rotated raw t u now hcall hpresented hrow hunspent hunrevoked hnew hfamily huser =>
    cases hcall
    obtain rfl : u = t' := by simpa [eq_comm] using hmem
    exact ⟨t, ⟨hrow, hunspent, hunrevoked, hnew, hfamily, huser, _, htokens⟩, hpresented⟩
  | spent => cases List.mem_singleton.1 hmem
  | revoked each =>
    obtain ⟨t, hw, -⟩ := each _ hmem
    cases hw

end

end Tessera
