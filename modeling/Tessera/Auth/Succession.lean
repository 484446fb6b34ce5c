import Tessera.Auth.Rotation
import Tessera.Transactions.Annals

/-!
# The succession of refresh tokens

Along every run the tokens of a family form one chain: each was exchanged for the next one, in
an event of the run, by a refresh that presented it.

* `Succeeded` — one token was exchanged for another, in an event of a run;
* `ReachesFresh.chain` — the families are chains of succession;
* `refresh_exchanged` — a refresh that answers has exchanged the token it presented;
* `reachable_succession` — the four together.
-/

namespace Tessera

open Relational Transactions Transactions.Program

/-- A token that can still be exchanged. -/
structure RefreshToken.Live (t : RefreshToken) (now : Time) : Prop where
  unspent : t.usedAt = none
  unrevoked : t.revokedAt = none
  unexpired : now < t.expiresAt

/-- In an event of the run up to `w` one token was exchanged for another. -/
def Succeeded (config : Config) (crypto : Crypto) (w : System) (id id' : Uuid) : Prop :=
  ∃ w₁ w₂ e t t', ReachesFresh config crypto w₁ ∧ FreshFamilies w₁ e ∧
    w₁.step database (program config crypto) e = some w₂ ∧ Exchanges w₁.db w₂.db t t' ∧
    World.Run database (program config crypto) FreshFamilies w₂ w ∧ t.id = id ∧ t'.id = id'

section
variable {config : Config} {crypto : Crypto} {w w' : System} {e : Event Inputs Call}
variable {s s' : Db} {t t' : RefreshToken} {h : List (Moment Db Write Inputs)}
variable {f : Standing Db LockKey Write}

/-! ## One event -/

/-- Each event is one step of the table. -/
theorem ReachesFresh.step (hw : ReachesFresh config crypto w) (he : FreshFamilies w e)
    (hs : w.step database (program config crypto) e = some w') : TokensStep w.db w'.db := by
  have hV := lineage_verified config crypto
  obtain ⟨-, hchange, -⟩ := (reachesFresh_sound hw).step hV (admits_fresh he) hs
  generalize w'.db = s' at hchange
  cases hchange with
  | none => exact .same rfl
  | commit hevent hsession hcommits => exact hcommits.2.step
  | draw hevent hsession hdraws =>
    have htokens : ∀ {row : Write}, row = .drawNonce ∨ row = .drawEntryId →
        (w.db.apply row).tokens = w.db.tokens := by
      rintro row (rfl | rfl) <;> rfl
    exact .same (by rw [show database.apply = Db.apply from rfl, htokens hdraws.1])

/-- What is spent stays so. -/
theorem ReachesFresh.moves (hw : ReachesFresh config crypto w)
    (hr : World.Run database (program config crypto) FreshFamilies w w') :
    TokensMove w.db w'.db :=
  (World.Sound.run (lineage_verified config crypto) (fun _ _ => admits_fresh) hr
    (reachesFresh_sound hw)).2.2

/-- The token that was exchanged is spent. -/
theorem Exchanges.spent (h : Exchanges s s' t t') :
    ∃ u, s'.token t.id = some u ∧ u.usedAt.isSome = true := by
  obtain ⟨now, hafter⟩ := h.after
  refine ⟨(TokenUpdate.used now).row t, ?_, rfl⟩
  unfold Db.token
  rw [hafter]
  exact lookup_append_of_some (lookup_modify_self (TokenUpdate.row_id _) h.row) [t']

/-- A token is exchanged at most once. -/
theorem ReachesFresh.once {w₁ w₂ w₃ w₄ : System} {u u' : RefreshToken}
    (hw : ReachesFresh config crypto w₁) (he : FreshFamilies w₁ e)
    (hs : w₁.step database (program config crypto) e = some w₂)
    (hr : World.Run database (program config crypto) FreshFamilies w₂ w₃)
    (h : Exchanges w₁.db w₂.db t t') (h' : Exchanges w₃.db w₄.db u u') : u.id ≠ t.id := by
  intro hid
  obtain ⟨v, hv, hused⟩ := h.spent
  obtain ⟨v', hv', -, hstays, -⟩ := ReachesFresh.moves (hw.tail he hs) hr t.id v hv
  obtain rfl : v' = u := Option.some.inj (hv'.symm.trans (hid ▸ h'.row))
  have hspent := hstays hused
  rw [h'.unspent] at hspent
  cases hspent

/-! ## Families -/

/-- A token that was succeeded stays so. -/
theorem Succeeded.later {id id' : Uuid} (h : Succeeded config crypto w id id')
    (hr : World.Run database (program config crypto) FreshFamilies w w') :
    Succeeded config crypto w' id id' := by
  obtain ⟨w₁, w₂, e, t, t', hw₁, he, hs, hexchange, hrun, hids⟩ := h
  exact ⟨w₁, w₂, e, t, t', hw₁, he, hs, hexchange, hrun.trans hr, hids⟩

/-- The ids of a family, when only updates have happened. -/
theorem family_ids_of_core (h : s'.tokens.map RefreshToken.core = s.tokens.map RefreshToken.core)
    (familyId : Uuid) : (s'.family familyId).map RefreshToken.id =
      (s.family familyId).map RefreshToken.id := by
  have hids : ∀ tokens : List RefreshToken,
      (tokens.filter fun t => t.familyId == familyId).map RefreshToken.id =
        ((tokens.map RefreshToken.core).filter fun t => t.familyId == familyId).map
          RefreshToken.id := by
    intro tokens
    rw [List.filter_map, List.map_map]
    rfl
  unfold Db.family
  rw [hids, h, ← hids]

/-- The family of the token that is exchanged grows by one, and no other. -/
theorem Exchanges.family_ids (h : Exchanges s s' t t') (familyId : Uuid) :
    (s'.family familyId).map RefreshToken.id = (s.family familyId).map RefreshToken.id ++
      if t'.familyId = familyId then [t'.id] else [] := by
  obtain ⟨now, hafter⟩ := h.after
  have hfamily : s'.family familyId =
      ((s.apply (.updateToken t.id (.used now))).apply (.insertToken t')).family familyId := by
    unfold Db.family
    rw [hafter]
    rfl
  rw [hfamily, family_insert, family_update, List.map_append,
    map_key_modify (TokenUpdate.row_id _)]
  split <;> rfl

/-- The families are chains of succession. -/
theorem ReachesFresh.chain (hw : ReachesFresh config crypto w) (familyId : Uuid) :
    ((w.db.family familyId).map RefreshToken.id).IsChain (Succeeded config crypto w) := by
  induction hw with
  | refl => exact .nil
  | @tail w w' e hw he hs ih =>
    have hone : World.Run database (program config crypto) FreshFamilies w w' :=
      .tail (.refl w) he hs
    have hold := ih.imp fun _ _ h => Succeeded.later h hone
    cases ReachesFresh.step hw he hs with
    | same hcores =>
      rw [family_ids_of_core hcores]
      exact hold
    | @started t hfresh hafter =>
      have hfamily : w'.db.family familyId = (w.db.apply (.insertToken t)).family familyId := by
        unfold Db.family
        rw [hafter]
        rfl
      rw [hfamily, family_insert]
      split
      case isTrue hof =>
        have hnil : w.db.family familyId = [] :=
          List.filter_eq_nil_iff.2 fun u hu => by simpa [← hof] using hfresh u hu
        rw [hnil]
        exact .singleton _
      case isFalse =>
        rw [List.append_nil]
        exact hold
    | @exchanged t t' hexchange =>
      rw [hexchange.family_ids]
      split
      case isTrue hof =>
        refine List.isChain_append.2 ⟨hold, .singleton _, fun id hid id' hid' => ?_⟩
        have hlast := (reachesFresh_sound hw).inv.2.last (lookup_mem hexchange.row)
          hexchange.unspent
        rw [← hexchange.family, hof] at hlast
        rw [List.getLast?_map, hlast] at hid
        cases hid
        cases hid'
        exact ⟨w, w', e, t, t', hw, he, hs, hexchange, .refl w', rfl, rfl⟩
      case isFalse =>
        rw [List.append_nil]
        exact hold

/-! ## A refresh that answers -/

/-- The pending token is the one that is handed out. -/
def Issued (crypto : Crypto) (token : String) (rows : List Write) : Prop :=
  ∃ t, .insertToken t ∈ rows ∧ t.tokenHash = hashToken crypto token

/-- A token that is inserted is among the writes. -/
theorem insertToken_along : (insertToken t).Along database anyCommit h f fun r _ f' =>
    r = .ok () → .insertToken t ∈ f'.pending := by
  have herror : ∀ (e : AppError) (h : List (Moment Db Write Inputs)) (f : Standing Db LockKey Write),
      (.error e : Except AppError Unit) = .ok () → .insertToken t ∈ f.pending := by
    intro e h f heq
    cases heq
  refine Along.after (fun _ _ => trivial) (fun _ h₁ f₁ => ?_) herror
  refine Along.after (fun _ _ => trivial) (fun _ h₂ f₂ => ?_) herror
  refine Along.bind (along_put (Along.next_ok ?_))
  refine (along_within (assertReference_touches : Touches [] _)).mono fun r h₃ f₃ hend _ => ?_
  obtain ⟨-, rows, hrows, -⟩ := hend
  rw [hrows]
  exact List.mem_append_left _ (List.mem_append_right _ List.mem_cons_self)

/-- The token that a rotation answers with is among its writes. -/
theorem rotateToken_along : (rotateToken config crypto t).Along database anyCommit h f
    fun r _ f' => ∀ result, r = .ok (.ok result) →
      Issued crypto result.refreshToken f'.pending := by
  have herror : ∀ (e : AppError) (h : List (Moment Db Write Inputs)) (f : Standing Db LockKey Write),
      ∀ result, (.error e : Except AppError RefreshOutcome) = .ok (.ok result) →
        Issued crypto result.refreshToken f.pending := by
    intro e h f result heq
    cases heq
  have hinvalid : ∀ (f : Standing Db LockKey Write), ∀ result : AuthResult,
      (.ok .invalid : Except AppError RefreshOutcome) = .ok (.ok result) →
        Issued crypto result.refreshToken f.pending := by
    intro f result heq
    cases heq
  refine fun x => Along.after (fun _ _ => trivial) (fun _ h₁ f₁ => ?_) herror
  refine Along.bind (along_select fun s₂ => Along.next_ok ?_)
  cases (f₁.view database s₂).user t.userId with
  | none => exact hinvalid _
  | some user =>
    dsimp only
    split
    · exact hinvalid _
    · refine Along.bind (fun jti y => Along.bind (insertToken_along.mono fun r h₃ f₃ hr => ?_))
      cases r with
      | error e => exact herror e h₃ f₃
      | ok _ =>
        intro z result heq
        cases heq
        exact ⟨_, hr rfl, rfl⟩

/-- A refresh that answers has committed the token that it hands out. -/
theorem refresh_along {rawToken : String} : (refresh config crypto rawToken).Along database
    anyCommit h f fun r h' _ => ∀ result, r = .ok result →
      ∃ rows, .wrote rows ∈ h' ∧ Issued crypto result.refreshToken rows := by
  have hbody : ∀ {h f}, (refreshTransaction config crypto (hashToken crypto rawToken)).Along
      database anyCommit h f fun r _ f' => ∀ result, r = .ok (.ok result) →
        Issued crypto result.refreshToken f'.pending := by
    intro h f
    have hother : ∀ {r : Except AppError RefreshOutcome} (f : Standing Db LockKey Write),
        (∀ result, r ≠ .ok (.ok result)) → ∀ result, r = .ok (.ok result) →
          Issued crypto result.refreshToken f.pending :=
      fun _ hne result heq => absurd heq (hne result)
    refine Along.after (fun _ _ => trivial) (fun found h₁ f₁ => ?_)
      fun _ _ f => hother f (by simp)
    cases found with
    | none => exact hother _ (by simp)
    | some stored =>
      dsimp only
      split
      · exact hother _ (by simp)
      · refine Along.bind_read fun x => ?_
        split
        · exact hother _ (by simp)
        · split
          · refine Along.after (fun _ _ => trivial) (fun _ _ f => ?_) fun _ _ f => ?_
            · exact hother f (by simp)
            · exact hother f (by simp)
          · exact rotateToken_along
  refine Along.bind_read fun x => ?_
  split
  · intro result heq
    cases heq
  · have herror : ∀ {e : AppError} {h : List (Moment Db Write Inputs)}, ∀ result : AuthResult,
        (.error e : Except AppError AuthResult) = .ok result →
          ∃ rows, .wrote rows ∈ h ∧ Issued crypto result.refreshToken rows := by
      intro e h result heq
      cases heq
    refine Along.bind (Along.transaction (hbody.mono fun r h₁ f₁ hr => ?_))
    cases r with
    | error e => exact herror
    | ok outcome =>
      refine ⟨trivial, Along.next_ok ?_, fun e => herror⟩
      cases outcome with
      | reuse => exact herror
      | invalid => exact herror
      | ok result =>
        intro result' heq
        cases heq
        exact ⟨f₁.pending, by simp, hr _ rfl⟩

/-- What a call has committed when it answers. -/
def Call.handsOut (crypto : Crypto) (c : Call) (r : Except AppError Reply)
    (h : List (Moment Db Write Inputs)) (_ : Standing Db LockKey Write) : Prop :=
  ∀ rawToken result, c = .refresh rawToken → r = .ok (.auth result) →
    ∃ rows, .wrote rows ∈ h ∧ Issued crypto result.refreshToken rows

/-- Along a run every session is recorded with what it hands out. -/
theorem ReachesFresh.recorded (hw : ReachesFresh config crypto w) :
    Recorded database (program config crypto) FreshFamilies (fun _ => anyCommit)
      (Call.handsOut crypto) ⟨migrated, []⟩ w := by
  refine chronicled (fun c => ?_) (fun c h f rawToken result _ heq => by cases heq) rfl hw
  have hother : (∀ rawToken, c ≠ .refresh rawToken) → (program config crypto c).Along database
      anyCommit [] {} (Call.handsOut crypto c) := fun hne =>
    Along.of_forall (fun _ _ => trivial) fun r h f rawToken result hc =>
      absurd hc (hne rawToken)
  cases c with
  | refresh rawToken =>
    refine Along.map (refresh_along.mono fun r h f hr rawToken' result _ heq => ?_)
    cases r with
    | error e => cases heq
    | ok result' =>
      cases heq
      exact hr _ rfl
  | _ => exact hother (by simp)

/-- A refresh that answers has exchanged the token it presented for the one it hands out. -/
theorem ReachesFresh.refreshed (hw : ReachesFresh config crypto w) {i : ℕ} {c : Client}
    {rawToken : String} {result : AuthResult} (hc : w.sessions[i]? = some c)
    (hcall : c.call = .refresh rawToken) (hdone : c.program = .done (.ok (.auth result))) :
    ∃ w₁ w₂ x t t', ReachesFresh config crypto w₁ ∧ FreshFamilies w₁ (.run i x) ∧
      w₁.step database (program config crypto) (.run i x) = some w₂ ∧
      Exchanges w₁.db w₂.db t t' ∧ t.tokenHash = hashToken crypto rawToken ∧
      t'.tokenHash = hashToken crypto result.refreshToken ∧
      World.Run database (program config crypto) FreshFamilies w₂ w := by
  obtain ⟨h, hchronicle, halong⟩ := hw.recorded i c hc
  rw [hdone] at halong
  obtain ⟨rows, hmem, t', ht', hhash⟩ := halong rawToken result hcall rfl
  obtain ⟨h₁, h₂, rfl⟩ := List.append_of_mem hmem
  obtain ⟨w₁, w₂, y, hchronicle₁, htakes, hy, hrun⟩ := hchronicle.split rfl
  have hw₁ : ReachesFresh config crypto w₁ := hchronicle₁.run
  obtain ⟨⟨-, hchange⟩, hafter⟩ := (reachesFresh_sound hw₁).wrote
    (lineage_base config).regular htakes fun x => admits_fresh (e := .run i x) hy
  obtain ⟨x, -, -, -, -, hstep⟩ := htakes
  rw [hcall] at hchange
  obtain ⟨t, hexchange, hpresented⟩ := TokenChange.exchange hchange ht'
  rw [← hafter] at hexchange
  exact ⟨w₁, w₂, x, t, t', hw₁, hy, hstep, hexchange, hpresented, hhash, hrun⟩

/-- Refresh-token lineage: a family has at most one live token and is a single chain of
succession, a token is exchanged at most once, and a refresh that answers has exchanged exactly
the token it presented. -/
theorem reachable_succession (hw : ReachesFresh config crypto w) :
    (∀ now, ∀ t ∈ w.db.tokens, ∀ t' ∈ w.db.tokens, t.familyId = t'.familyId →
      t.Live now → t'.Live now → t = t') ∧
    (∀ familyId, ((w.db.family familyId).map RefreshToken.id).IsChain
      (Succeeded config crypto w)) ∧
    (∀ e w', FreshFamilies w e → w.step database (program config crypto) e = some w' →
      TokensStep w.db w'.db ∧ ∀ t t', Exchanges w.db w'.db t t' → ∀ w₃ w₄ : System,
        World.Run database (program config crypto) FreshFamilies w' w₃ →
          ∀ u u', Exchanges w₃.db w₄.db u u' → u.id ≠ t.id) ∧
    ∀ i c rawToken result, w.sessions[i]? = some c → c.call = .refresh rawToken →
      c.program = .done (.ok (.auth result)) →
      ∃ w₁ w₂ x t t', ReachesFresh config crypto w₁ ∧ FreshFamilies w₁ (.run i x) ∧
        w₁.step database (program config crypto) (.run i x) = some w₂ ∧
        Exchanges w₁.db w₂.db t t' ∧ t.tokenHash = hashToken crypto rawToken ∧
        t'.tokenHash = hashToken crypto result.refreshToken ∧
        World.Run database (program config crypto) FreshFamilies w₂ w := by
  refine ⟨fun now t ht t' ht' hfamily hlive hlive' => ?_, hw.chain, fun e w' he hs => ⟨hw.step he hs,
    fun t t' hexchange w₃ w₄ hr u u' hexchange' => hw.once he hs hr hexchange hexchange'⟩,
    fun i c rawToken result hc hcall hdone => hw.refreshed hc hcall hdone⟩
  exact (reachesFresh_sound hw).inv.2.single ht ht' hfamily hlive.unspent hlive'.unspent

end

/-! ## Two copies of a refresh -/

/-- Whether the family that a session is about to start is not there yet. -/
def checkFresh (w : System) : Event Inputs Call → Bool
  | .run i _ => w.sessions[i]?.all fun c => !c.call.opensFamily ||
      c.standing.pending.all fun row => match row with
        | .insertToken t => w.db.tokens.all fun u => u.familyId != t.familyId
        | _ => true
  | _ => true

/-- New families can be checked for. -/
theorem checkFresh_sound (w : System) (e : Event Inputs Call) (h : checkFresh w e = true) :
    FreshFamilies w e := by
  cases e with
  | run i x =>
    intro c hc _ hopens t ht u hu
    simp only [checkFresh, hc, Option.all_some, hopens, Bool.not_true, Bool.false_or,
      List.all_eq_true] at h
    have hall := h _ ht
    simpa using List.all_eq_true.1 hall u hu
  | _ => trivial

/-- The world after a list of events, those that start a family twice left out. -/
def executedFresh (events : List (Event Inputs Call)) : System :=
  World.attemptWhere database (program smallConfig plainCrypto) checkFresh ⟨migrated, []⟩ events

/-- The states of a list of events that are checked so are reached. -/
theorem reachesFresh_executed (events : List (Event Inputs Call)) :
    ReachesFresh smallConfig plainCrypto (executedFresh events) :=
  World.Run.attemptWhere checkFresh_sound (.refl _) events

/-- The token that a registration hands out. -/
def firstToken : String := String.ofList (List.replicate 30 't')

/-- A user registers, and two copies of one refresh of the token race each other. -/
def twoCopies : List (Event Inputs Call) :=
  .start (.register ⟨"ann", "Ann", "secret"⟩) :: turns 0 50 0 ++
  .start (.refresh firstToken) :: .start (.refresh firstToken) ::
  (List.range 20).flatMap (fun j =>
    [.run 1 (readingAt (40 + j) 5), .run 2 (readingAt (60 + j) 5)]) ++ turns 2 20 80 5

/-- The first copy exchanges the token, and the second revokes the family. -/
theorem reachable_succession_twoCopies :
    ((executedFresh twoCopies).db.tokens.map fun t => (t.id, t.usedAt, t.revokedAt)) =
        [(uuidAt 31, some 5, some 5), (uuidAt 50, none, some 5)] ∧
      ∀ familyId, (((executedFresh twoCopies).db.family familyId).map RefreshToken.id).IsChain
        (Succeeded smallConfig plainCrypto (executedFresh twoCopies)) :=
  ⟨by decide +kernel, (reachable_succession (reachesFresh_executed twoCopies)).2.1⟩

end Tessera
