import Tessera.Books.Settlement
import Tessera.Database.Overlay
import Tessera.Transactions.Executed
import Tessera.Transactions.Following

/-!
# Requests that are repeated

A client that does not hear of its bet asks again under the same idempotency key.  However many
copies of a request run, and in whatever order, there is one bet, and whoever is answered with a
bet is answered with this one.  A copy that begins when the bet is there waits for nobody.

* `Bet.request` — what the copies of a request have in common;
* `Shown` — a view of the bet that a request asks for;
* `Replaying` — the three places at which a replay can stand;
* `reachable_replays` — the three together.

Source: `rounds.service.ts` `placeBet`, `findByIdempotencyKey`.
-/

namespace Tessera

open Relational Transactions Transactions.Program

/-- What the copies of a request have in common. -/
def Bet.request (b : Bet) : Uuid × String := (b.userId, b.idempotencyKey)

/-- The request that a call makes. -/
def PlaceBetInput.request (input : PlaceBetInput) : Uuid × String :=
  (input.userId, input.idempotencyKey)

/-- The stake is within the limits. -/
structure PlaceBetInput.Accepted (config : Config) (input : PlaceBetInput) : Prop where
  least : config.minStakeMinor ≤ input.stakeMinor
  most : input.stakeMinor ≤ config.maxStakeMinor
  safe : Js.isSafeInteger input.stakeMinor = true

section
variable {config : Config} {crypto : Crypto} {s s' : Db} {b : Bet} {input : PlaceBetInput}

/-- The request of a bet is fixed. -/
theorem request_of_core {b' : Bet} (h : b'.core = b.core) : b'.request = b.request := by
  have hsame := congrArg Bet.request h
  exact hsame

/-! ## One bet for a request -/

/-- An effect does not make a second bet for a request. -/
theorem Effect.requests {e : Effect} (he : e.Enabled config s)
    (h : (s.bets.map Bet.request).Nodup) : ((e.after s).bets.map Bet.request).Nodup := by
  rcases e with ⟨u, a, p⟩ | ⟨b, p⟩ | ⟨id, u, p⟩ | ⟨id, u⟩ | r | w
  · have hafter : Effect.after (.enroll u a p) s =
        ((s.apply (.insertUser u)).apply (.insertAccount a)).posted p := applyAll_posted _ p
    rw [hafter]
    exact h
  · have hafter : Effect.after (.place b p) s = (s.apply (.insertBet b)).posted p :=
      applyAll_posted _ p
    have hfresh : b.request ∉ s.bets.map Bet.request := by
      intro hmem
      obtain ⟨c, hc, heq⟩ := List.mem_map.1 hmem
      have hkey := List.any_eq_false.1 he.key c hc
      obtain ⟨huser, hid⟩ := Prod.mk.inj heq
      exact hkey (by simp [huser, hid])
    rw [hafter]
    show ((s.bets ++ [b]).map Bet.request).Nodup
    rw [List.map_append]
    exact List.nodup_append'.2 ⟨h, List.nodup_singleton _, by simpa using hfresh⟩
  · have hafter : Effect.after (.close id u p) s = (s.apply (.updateBet id u)).posted p :=
      applyAll_posted _ p
    have hsame : (s.apply (.updateBet id u)).bets.map Bet.request = s.bets.map Bet.request :=
      map_modify fun _ => rfl
    rw [hafter]
    show ((s.apply (.updateBet id u)).bets.map Bet.request).Nodup
    rw [hsame]
    exact h
  · exact h
  · exact h
  · have haside : w.isAside = true := he
    cases w <;> first
      | exact absurd haside Bool.false_ne_true
      | exact h

/-- What every effect keeps is true of every state that is reached. -/
theorem Reaches.invariant {P : Db → Prop} (hinit : P migrated)
    (heffect : ∀ {s : Db} {e : Effect}, e.Enabled config s → P s → P (e.after s))
    (hdraw : ∀ {s : Db} {row : Write}, row = .drawNonce ∨ row = .drawEntryId → P s →
      P (s.apply row))
    {w : System} (h : Reaches config crypto w) : P w.db := by
  induction h with
  | refl => exact hinit
  | @tail w w' e hw _ hstep ih =>
    obtain ⟨-, hchange, -⟩ :=
      (reachable_sound hw).step (system_verified config crypto) (admits_all config w e) hstep
    generalize w'.db = s' at hchange
    rcases hchange with _ | ⟨_, _, hcommits⟩ | ⟨_, _, hdraws⟩
    · exact ih
    · obtain ⟨es, hrows, hdone, -⟩ := hcommits
      rw [hrows]
      exact hdone.invariant (P := P) (fun s e hs he => heffect he hs) ih
    · exact hdraw hdraws ih

/-- No two bets have the same request. -/
theorem reachable_requests {w : System} (h : Reaches config crypto w) :
    (w.db.bets.map Bet.request).Nodup := by
  refine Reaches.invariant (P := fun s => (s.bets.map Bet.request).Nodup) List.nodup_nil
    (fun he hs => Effect.requests he hs) (fun hrow hs => ?_) h
  rcases hrow with rfl | rfl
  · exact hs
  · exact hs

/-- What is found under the key of a request is its bet. -/
theorem find_of_request (h : (s.bets.map Bet.request).Nodup) (hb : b ∈ s.bets)
    (hrequest : b.request = input.request) :
    findByIdempotencyKey input.userId input.idempotencyKey s = some b := by
  unfold findByIdempotencyKey
  obtain ⟨huser, hkey⟩ := Prod.mk.inj hrequest
  have hpasses : (b.userId == input.userId && b.idempotencyKey == input.idempotencyKey) = true := by
    rw [huser, hkey]
    simp
  have hsome : (s.bets.find? fun b =>
      b.userId == input.userId && b.idempotencyKey == input.idempotencyKey).isSome = true :=
    List.find?_isSome.2 ⟨b, hb, hpasses⟩
  obtain ⟨c, hc⟩ := Option.isSome_iff_exists.1 hsome
  have hfound := List.find?_some hc
  simp only [Bool.and_eq_true, beq_iff_eq] at hfound
  have hsame : c.request = b.request := by
    unfold Bet.request
    rw [hfound.1, hfound.2, huser, hkey]
  rw [hc, eq_of_key h (List.mem_of_find?_eq_some hc) hb hsame]

/-- The bet that is found is that of the request. -/
theorem request_of_find
    (h : findByIdempotencyKey input.userId input.idempotencyKey s = some b) :
    b ∈ s.bets ∧ b.request = input.request := by
  have hfound := List.find?_some h
  simp only [Bool.and_eq_true, beq_iff_eq] at hfound
  exact ⟨List.mem_of_find?_eq_some h, Prod.ext hfound.1 hfound.2⟩

/-! ## Answers -/

/-- The view shows the bet that the request asks for, as its row is or was. -/
def Shown (input : PlaceBetInput) (view : BetView) (s : Db) : Prop :=
  ∃ b row game, s.bet b.id = some b ∧ b.request = input.request ∧ row.core = b.core ∧
    view = toBetView row game

/-- A bet that was shown is still in the table. -/
theorem Shown.later {view : BetView} (h : Shown input view s) (hs : Grows s s') :
    Shown input view s' := by
  obtain ⟨b, row, game, hb, hrequest, hrow, hview⟩ := h
  obtain ⟨b', hb', hcore⟩ := hs.bet hb
  have hid : b'.id = b.id := lookup_key hb'
  exact ⟨b', row, game, hid ▸ hb', (request_of_core hcore).trans hrequest,
    hrow.trans hcore.symm, hview⟩

/-- A row that is found under the key of the request. -/
theorem Shown.of_find (hs : Consistent config s) {b : Bet}
    (h : findByIdempotencyKey input.userId input.idempotencyKey s = some b) (game : GameKind) :
    Shown input (toBetView b game) s := by
  obtain ⟨hb, hrequest⟩ := request_of_find h
  exact ⟨b, b, game, lookup_of_mem hs.keyed.bets hb, hrequest, rfl, rfl⟩

/-- The row of a bet that has been placed. -/
theorem bet_placed {p : Posted} {e₁ e₂ : RoundDomainEvent} (h : s.bet b.id = none) :
    (database.applyAll s (rowsOf [.place b p, .aside (.notify e₁), .aside (.notify e₂)])).bet b.id =
      some b := by
  rw [applyAll_rowsOf_cons]
  change (database.applyAll (database.applyAll (s.apply (.insertBet b)) p.rows) _).bet b.id = some b
  rw [applyAll_posted]
  exact lookup_append_new h

/-- The transaction of `placeBet` answers with the bet of the request. -/
theorem placeBetTransaction_shown (hs : Consistent config s) {stake : Money}
    (hstake : stake.minor = input.stakeMinor) (hpos : 0 < stake.minor) :
    wp database (books config) (terms config (.placeBet input))
      (transaction (placeBetTransaction input stake)) {} s
      fun r f s' => f.pending = [] ∧ ∀ view, r = .ok view → Shown input view s' := by
  refine wp_transaction (wp_placeBetTransaction (books_regime config)
    (terms_fair config (.placeBet input)) (fun _ h => h) (placeBetGuards config input) hs hpos rfl
    rfl (fun f' s' b P hfind => ?_) (fun locks f' s' r w priced x p e₁ e₂ P hplacing => ?_)
    (fun f' s' w _ hw hlt hlog _ => ?_) fun e f' s' hab hfails => ?_)
  · intro s'' hs'' _
    refine ⟨fun _ => ⟨⟨[], by rw [P.pending]; rfl, trivial, .inl rfl⟩, rfl, fun view hview => ?_⟩,
      fun e he => ⟨rfl, fun view hview => by cases hview⟩⟩
    cases hview
    rw [view_nil P.pending]
    exact (Shown.of_find P.rely.inv hfind .CRASH).later hs''.grows.toGrows
  · intro s'' hs'' _
    have hp := hplacing s'' hs''
    refine ⟨fun _ => ⟨⟨[.place (input.bet stake priced x) p, .aside (.notify e₁),
      .aside (.notify e₂)], by rw [P.pending]; rfl, ⟨hp.places, rfl, rfl, trivial⟩,
      .inr ⟨_, p, e₁, e₂, rfl, rfl, rfl, rfl, hstake⟩⟩, rfl, fun view hview => ?_⟩,
      fun e he => ⟨rfl, fun view hview => by cases hview⟩⟩
    cases hview
    have hrow : (f'.view database s'').bet (input.bet stake priced x).id =
        some (input.bet stake priced x) := by
      unfold Standing.view
      rw [P.pending]
      exact bet_placed hp.places.id
    exact ⟨_, _, r.game, hrow, rfl, rfl, rfl⟩
  · exact fun s'' _ => ⟨rfl, fun view hview => by cases hview⟩
  · exact fun s'' _ => ⟨rfl, fun view hview => by cases hview⟩

/-- Whoever loses the race for the unique index reads the bet of the request. -/
theorem placeBetRecover_shown {f : Standing Db LockKey Write} {e : AppError}
    (hf : f.pending = []) :
    wp database (books config) (terms config (.placeBet input)) (placeBetRecover input e) f s
      fun r _ s' => ∀ view, r = .ok view → Shown input view s' := by
  unfold placeBetRecover
  split
  case isFalse => exact fun view hview => by cases hview
  case isTrue =>
  refine wp_bind.2 (wp_select fun s' hs' => onValue_ok ?_)
  rw [view_nil hf]
  rcases hfind : findByIdempotencyKey input.userId input.idempotencyKey s' with _ | existing
  · exact fun view hview => by cases hview
  · intro view hview
    cases hview
    exact .of_find hs'.inv hfind .CRASH

/-- What is known of the answer of a `placeBet`. -/
def Call.shows (c : Call) (r : Except AppError Reply) (s : Db) : Prop :=
  ∀ input view, c = .placeBet input → r = .ok (.bet view) → Shown input view s

/-- What `placeBet` answers is in the table. -/
theorem placeBet_shown (hs : Consistent config s) :
    wp database (books config) (terms config (.placeBet input))
      (Reply.bet <$> placeBet config input) {} s
      fun r _ s' => Call.shows (.placeBet input) r s' := by
  refine wp_map (wp_mono (Q := fun r _ s' => ∀ view, r = .ok view → Shown input view s')
    (fun r f s h input' view hc hr => ?_) ?_)
  · cases hc
    rcases r with e | view'
    · cases hr
    · cases hr
      exact h view rfl
  · unfold placeBet
    split
    case isTrue => exact fun view hview => by cases hview
    case isFalse hrange =>
    refine wp_bind.2 (wp_check ?_)
    rcases hstake : Money.fromMinor input.stakeMinor with e | stake
    · exact fun view hview => by cases hview
    · have hminor := Money.fromMinor_ok hstake
      have hpos : 0 < stake.minor := by
        have hmin := config.minStake_pos
        rw [hminor]
        omega
      refine onValue_ok (wp_handle.2 (wp_mono (fun r f s h => ?_)
        (placeBetTransaction_shown hs hminor hpos)))
      rcases r with e | view
      · exact placeBetRecover_shown h.1
      · exact fun view' hview' => h.2 view' hview'

/-- Every `placeBet` that is answered with a bet is answered with the bet of its request. -/
theorem shows_verified (config : Config) (crypto : Crypto) :
    Verified database (books config) (program config crypto) (terms config)
      fun _ c r _ s => c.shows r s where
  discipline := books_lawful config
  lawful := terms_lawful config
  stable _ c r f s s' hs h input view hc hr := (h input view hc hr).later hs.grows.toGrows
  lost _ c f s input view hc hr := by cases hr
  start i c s hs hstart := by
    by_cases hplace : ∃ input, c = .placeBet input
    · obtain ⟨input, rfl⟩ := hplace
      exact placeBet_shown hs
    · exact wp_mono (fun r f s _ input view hc _ => absurd ⟨input, hc⟩ hplace)
        ((system_verified config crypto).start i c s hs hstart)

/-- What was answered is in the table in every state that is reached. -/
theorem reachable_shown {w : System} (h : Reaches config crypto w) {i : ℕ} {t : Client}
    {view : BetView} (ht : w.sessions[i]? = some t) (hcall : t.call = .placeBet input)
    (hanswer : t.answer = some (.ok (.bet view))) : Shown input view w.db := by
  have hsound := (World.Sound.run (shows_verified config crypto)
    (fun w e _ => admits_all config w e) h (.idle (migrated_consistent config))).1
  have hsafe := (hsound.session ht).safe
  rw [Session.answer_eq_some.1 hanswer] at hsafe
  exact hsafe input view hcall rfl

/-! ## A replay -/

/-- Where a request whose bet `b` is there can stand, when it has been given `n` turns: it has yet
to look for the bet, it has found the bet and ends its transaction, or it has answered. -/
inductive Replaying (config : Config) (input : PlaceBetInput) (b : Bet) : ℕ → Action Reply → Prop
  | asked : Replaying config input b 0 (Reply.bet <$> placeBet config input)
  | found {row : Bet} {next : Except AppError Unit → Action Reply} : row.core = b.core →
      next (.ok ()) = .done (.ok (.bet (toBetView row))) →
      Replaying config input b 1 (.commit next)
  | answered {n : ℕ} {row : Bet} : row.core = b.core →
      Replaying config input b (n + 2) (.done (.ok (.bet (toBetView row))))
  | lost {n : ℕ} : Replaying config input b n (.done (.error .connectionLost))

/-- The first thing that an accepted request does is to look for its bet. -/
theorem placeBet_query (h : input.Accepted config) :
    ∃ next, (Reply.bet <$> placeBet config input : Action Reply) = .query next ∧
      ∀ s row, findByIdempotencyKey input.userId input.idempotencyKey s = some row →
        ∃ rest, next s = .commit rest ∧ rest (.ok ()) = .done (.ok (.bet (toBetView row))) := by
  have hrange : ¬(input.stakeMinor < config.minStakeMinor ∨
      config.maxStakeMinor < input.stakeMinor) :=
    not_or.2 ⟨not_lt.2 h.least, not_lt.2 h.most⟩
  have hstake : ∃ stake, Money.fromMinor input.stakeMinor = .ok stake := by
    unfold Money.fromMinor
    rw [dif_pos h.safe]
    exact ⟨_, rfl⟩
  obtain ⟨stake, hstake⟩ := hstake
  unfold placeBet
  rw [if_neg hrange, hstake]
  refine ⟨_, rfl, fun s row hrow => ?_⟩
  simp only [Program.handle, hrow]
  exact ⟨_, rfl, rfl⟩

/-- What its turns make of a replay. -/
theorem Replaying.turn {w₀ w₁ : System} (hw₀ : Reaches config crypto w₀)
    (hrun : World.Run database (program config crypto) (fun _ _ => True) w₀ w₁)
    (haccepted : input.Accepted config) (hb : w₀.db.bet b.id = some b)
    (hrequest : b.request = input.request) {n : ℕ} {p : Action Reply}
    {f : Standing Db LockKey Write} {x : Inputs}
    {r : Db × Action Reply × Standing Db LockKey Write}
    (hp : Replaying config input b n p) (hf : f.pending = [])
    (hr : p.turn database x w₁.db f = some r) :
    r.1 = w₁.db ∧ Replaying config input b (n + 1) r.2.1 ∧ r.2.2.pending = [] ∧
      (f.held = [] → r.2.2.held = []) := by
  have hview : f.view database w₁.db = w₁.db := view_nil hf w₁.db
  rcases hp with _ | ⟨hrow, hnext⟩ | hrow | _
  · -- the bet is still there, under the same key
    obtain ⟨next, hquery, hfound⟩ := placeBet_query haccepted
    obtain ⟨row, hrow, hcore⟩ := (reachable_history hw₀ hrun).bet hb
    have hfind := find_of_request (reachable_requests (hw₀.trans hrun)) (lookup_mem hrow)
      ((request_of_core hcore).trans hrequest)
    obtain ⟨rest, hrest, hanswer⟩ := hfound w₁.db row hfind
    rw [hquery] at hr
    cases hr
    rw [hview, hrest]
    exact ⟨rfl, .found hcore hanswer, hf, fun h => h⟩
  · -- nothing is pending, so nothing can be wrong with it
    have hdeferred : database.deferred w₁.db [] = .ok () := rfl
    simp only [Program.turn, hview, hf, hdeferred] at hr
    cases hr
    rw [hnext]
    exact ⟨rfl, .answered hrow, rfl, fun _ => rfl⟩
  · cases hr
  · cases hr

/-- A replay waits for no lock. -/
theorem Replaying.unlocked (haccepted : input.Accepted config) {n : ℕ} {p : Action Reply}
    (h : Replaying config input b n p) : p.wants = none := by
  rcases h with _ | _ | _ | _
  · obtain ⟨next, hquery, -⟩ := placeBet_query haccepted
    rw [hquery]
    rfl
  · rfl
  · rfl
  · rfl

/-- A replay that has ended, given one turn more. -/
theorem Replaying.ended (haccepted : input.Accepted config) {n : ℕ} {p : Action Reply}
    {r : Except AppError Reply} (h : Replaying config input b n p) (hp : p = .done r) :
    Replaying config input b (n + 1) p ∧
      (r = .error .connectionLost ∨ ∃ row, row.core = b.core ∧ r = .ok (.bet (toBetView row))) := by
  rcases h with _ | _ | hrow | _
  · obtain ⟨next, hquery, -⟩ := placeBet_query haccepted
    rw [hquery] at hp
    cases hp
  · cases hp
  · cases hp
    exact ⟨.answered hrow, .inr ⟨_, hrow, rfl⟩⟩
  · cases hp
    exact ⟨.lost, .inl rfl⟩

/-- After two turns a replay has ended. -/
theorem Replaying.two {n : ℕ} {t : Client}
    (h : Replaying config input b (n + 2) t.program) : t.answer.isSome = true := by
  generalize hm : n + 2 = m at h
  unfold Session.answer
  generalize t.program = p at h
  rcases h with _ | _ | _ | _
  · omega
  · omega
  · rfl
  · rfl

/-- The `i`-th session repeats the request that the bet `b` was placed by, and was given `n`
turns. -/
structure Replays (config : Config) (crypto : Crypto) (input : PlaceBetInput) (b : Bet) (i n : ℕ)
    (w : System) : Prop where
  /-- It holds no lock, and two turns are enough for it. -/
  there : ∃ t, w.sessions[i]? = some t ∧ t.call = .placeBet input ∧ t.standing.held = [] ∧
    (2 ≤ n → t.answer.isSome = true)
  /-- Whatever locks the others hold, it can take its turn. -/
  free : ∀ t, w.sessions[i]? = some t → t.answer = none →
    ∀ x, (w.step database (program config crypto) (.run i x)).isSome = true
  /-- Its turns change nothing. -/
  quiet : ∀ x w', w.step database (program config crypto) (.run i x) = some w' → w'.db = w.db
  /-- It answers with the bet, unless its connection is lost. -/
  answer : ∀ t r, w.sessions[i]? = some t → t.answer = some r →
    r = .error .connectionLost ∨ ∃ row, row.core = b.core ∧ r = .ok (.bet (toBetView row))

/-- The session of a replay, when it was given its turns among whatever else has happened. -/
theorem Reaches.replaying {w : System} (h : Reaches config crypto w)
    (haccepted : input.Accepted config) (hb : w.db.bet b.id = some b)
    (hrequest : b.request = input.request) (events : List (Event Inputs Call)) :
    ∃ t, (w.attempt database (program config crypto)
        (.start (.placeBet input) :: events)).sessions[w.sessions.length]? = some t ∧
      t.call = .placeBet input ∧
      Replaying config input b (events.countP (Event.runs w.sessions.length)) t.program ∧
      t.standing.pending = [] ∧ t.standing.held = [] := by
  refine World.attempt_begun (program config crypto)
    (P := fun n p f => Replaying config input b n p ∧ f.pending = [] ∧ f.held = [])
    (fun n f => ⟨.lost, rfl, rfl⟩) (fun n r f hP => ⟨(hP.1.ended haccepted rfl).1, hP.2⟩)
    (fun n p f hP => hP.1.unlocked haccepted) (fun w₁ x n p f r hrun hP hr => ?_)
    ⟨.asked, rfl, rfl⟩ events
  obtain ⟨-, hnext, hpending, hheld⟩ := hP.1.turn h hrun haccepted hb hrequest hP.2.1 hr
  exact ⟨hnext, hpending, hheld hP.2.2⟩

/-- A request that has been served is only replayed. -/
theorem Reaches.replays {w : System} (h : Reaches config crypto w)
    (haccepted : input.Accepted config)
    (hfind : findByIdempotencyKey input.userId input.idempotencyKey w.db = some b)
    (events : List (Event Inputs Call)) :
    Replays config crypto input b w.sessions.length
      (events.countP (Event.runs w.sessions.length))
      (w.attempt database (program config crypto) (.start (.placeBet input) :: events)) := by
  obtain ⟨hmem, hrequest⟩ := request_of_find hfind
  have hb : w.db.bet b.id = some b := lookup_of_mem (reachable_consistent h).keyed.bets hmem
  obtain ⟨t, ht, hcall, hreplaying, hpending, hheld⟩ := h.replaying haccepted hb hrequest events
  have hlater : World.Run database (program config crypto) (fun _ _ => True) w
      (w.attempt database (program config crypto) (.start (.placeBet input) :: events)) :=
    World.Run.attempt (fun _ _ => trivial) (.refl w) _
  generalize events.countP (Event.runs w.sessions.length) = n at hreplaying
  generalize w.attempt database (program config crypto) (.start (.placeBet input) :: events) = w'
    at ht hlater
  constructor
  case there =>
    refine ⟨t, ht, hcall, hheld, fun hn => ?_⟩
    obtain ⟨m, rfl⟩ := Nat.exists_eq_add_of_le' hn
    exact hreplaying.two
  case free =>
    intro t' ht' hanswer x
    cases ht.symm.trans ht'
    rcases Program.turn_cases database x w'.db t.program t.standing with ⟨r, hdone⟩ | ⟨r, hturn⟩
    · rw [Session.answer_eq_some.2 hdone] at hanswer
      cases hanswer
    · rw [World.step_unlocked ht (hreplaying.unlocked haccepted) hturn]
      rfl
  case quiet =>
    intro x w'' hs
    rcases Program.turn_cases database x w'.db t.program t.standing with ⟨r, hdone⟩ | ⟨r, hturn⟩
    · simp only [World.step, ht, Option.bind_some, hdone] at hs
      split at hs <;> cases hs
    · rw [World.step_unlocked ht (hreplaying.unlocked haccepted) hturn] at hs
      cases hs
      exact (hreplaying.turn h hlater haccepted hb hrequest hpending hturn).1
  case answer =>
    intro t' r ht' hanswer
    cases ht.symm.trans ht'
    exact (hreplaying.ended haccepted (Session.answer_eq_some.1 hanswer)).2

/-- There is one bet for a request, whoever is answered with a bet is answered with it, and its
stake was journalled once.  A request that begins when its bet is there is answered with it in two
turns, whatever its round, stake and selection and whatever locks the others hold; it takes no lock
and changes nothing. -/
theorem reachable_replays {w : System} (h : Reaches config crypto w) :
    (w.db.bets.map Bet.request).Nodup ∧
    (∀ (i : ℕ) (t : Client) input view, w.sessions[i]? = some t → t.call = .placeBet input →
      t.answer = some (.ok (.bet view)) →
      ∃ b row game, findByIdempotencyKey input.userId input.idempotencyKey w.db = some b ∧
        row.core = b.core ∧ view = toBetView row game ∧
        w.db.journalled .BET_PLACED ⟨"bet", b.id⟩ = 1) ∧
    ∀ (input : PlaceBetInput) b, input.Accepted config →
      findByIdempotencyKey input.userId input.idempotencyKey w.db = some b →
      ∀ events, Replays config crypto input b w.sessions.length
        (events.countP (Event.runs w.sessions.length))
        (w.attempt database (program config crypto) (.start (.placeBet input) :: events)) := by
  refine ⟨reachable_requests h, fun i t input view ht hcall hanswer => ?_,
    fun input b haccepted hfind events => h.replays haccepted hfind events⟩
  obtain ⟨b, row, game, hb, hrequest, hrow, hview⟩ := reachable_shown h ht hcall hanswer
  have hmem : b ∈ w.db.bets := lookup_mem hb
  exact ⟨b, row, game, find_of_request (reachable_requests h) hmem hrequest, hrow, hview,
    (reachable_consistent h).settledOnce.placed b hmem⟩

end

/-- Ann's request, which is sent three times. -/
def request : PlaceBetInput := ⟨uuidAt 2, uuidAt 109, 60000, "a", none⟩

/-- Two copies look for the bet before it is there, and the second of them goes on when the first
has placed it; the third begins after that. -/
def copies : List (Event Inputs Call) :=
  .start (.register ⟨"ann", "Ann", "secret"⟩) :: turns 0 50 0 ++
  .start (.openRoundIfDue .CRASH) :: turns 1 40 100 ++
  .start (.placeBet request) :: .start (.placeBet request) :: turns 3 1 300 ++ turns 2 50 200 ++
  turns 3 50 301 ++ .start (.placeBet request) :: turns 4 2 400

theorem reachable_replays_copies :
    (executed copies).sessions.map (fun t => t.answer.map fun r => r.toOption.isSome) =
      [some true, some true, some true, some false, some true] ∧
    ∃ b, findByIdempotencyKey (uuidAt 2) "a" (executed copies).db = some b ∧
      ∀ events, Replays smallConfig plainCrypto request b (executed copies).sessions.length
        (events.countP (Event.runs (executed copies).sessions.length))
        ((executed copies).attempt database (program smallConfig plainCrypto)
          (.start (.placeBet request) :: events)) := by
  have hfind : (findByIdempotencyKey (uuidAt 2) "a" (executed copies).db).isSome = true := by
    decide +kernel
  obtain ⟨b, hb⟩ := Option.isSome_iff_exists.1 hfind
  exact ⟨by decide +kernel, b, hb, (reachable_replays (reaches_executed copies)).2.2 request b
    ⟨by decide, by decide, by decide⟩ hb⟩

end Tessera
