import Tessera.Rounds.Payouts
import Tessera.Transactions.Annals

/-!
# What a cash-out had read

A crash bet is won at the multiplier of a moment.  That moment is a reading of the clock by a
cash-out of the same bet, which had already read the round as running; and no cash-out closes a
bet on a roulette round.

* `HadRead` — what a cash-out has taken in when it commits;
* `ReadWhileRunning` — the two moments, as moments of a run;
* `reachable_paidOut` — what every bet is paid, along every run.
-/

namespace Tessera

open Relational Transactions Transactions.Program

/-- What a session has taken in before it commits a win: the bet, its round as running, and then
the clock. -/
def HadRead (h : List (Moment Db Write Inputs)) (f : Standing Db LockKey Write) : Prop :=
  ∀ id u, .updateBet id u ∈ f.pending → ∃ x h₁ h₂ s₁ s₂ bet r, h = h₁ ++ .took x :: h₂ ∧
    u.settledAt = x.now ∧ .saw s₁ ∈ h₁ ∧ s₁.bet id = some bet ∧ .saw s₂ ∈ h₁ ∧
    s₂.round bet.roundId = some r ∧ r.status = .RUNNING

/-- What a call has taken in before it commits. -/
def Call.taken : Call → List (Moment Db Write Inputs) → Standing Db LockKey Write → Prop
  | .cashOut _ => HadRead
  | _ => fun _ _ => True

section
variable {config : Config} {crypto : Crypto} {h : List (Moment Db Write Inputs)}
variable {f : Standing Db LockKey Write} {input : CashOutInput} {bet : Bet}

/-- A session without writes has closed nothing. -/
theorem HadRead.nil (hf : f.pending = []) : HadRead h f := by
  intro id u hu
  rw [hf] at hu
  cases hu

/-- The only bet that has been updated, if any, is closed at one moment. -/
def ClosesOnly (h : List (Moment Db Write Inputs)) (bet : Bet) (now : Time) (h' : List (Moment Db Write Inputs))
    (f' : Standing Db LockKey Write) : Prop :=
  h <+: h' ∧ ∀ id u, .updateBet id u ∈ f'.pending → id = bet.id ∧ u.settledAt = now

/-- Nor has it closed another bet. -/
theorem ClosesOnly.nil {now : Time} (hf : f.pending = []) : ClosesOnly h bet now h f := by
  refine ⟨List.prefix_refl _, fun id u hu => ?_⟩
  rw [hf] at hu
  cases hu

/-- The update closes its own bet only, at the given time. -/
theorem updateActiveBet_along {u : BetUpdate} (hf : f.pending = []) :
    (updateActiveBet bet.id u).Along database HadRead h f fun _ =>
      ClosesOnly h bet u.settledAt := by
  have hnone : ∀ {h' f'}, h <+: h' → f'.pending = f.pending →
      ClosesOnly h bet u.settledAt h' f' := by
    intro h' f' honward hsame
    refine ⟨honward, fun id v hv => ?_⟩
    rw [hsame, hf] at hv
    cases hv
  refine Along.bind (along_selectForLock (fun s₁ => ?_) fun s₁ s₂ k => ?_)
  · exact hnone (List.prefix_append _ _) rfl
  · have honward : h <+: h ++ [.saw s₁] ++ [.saw s₂] := by
      rw [List.append_assoc]
      exact List.prefix_append _ _
    unfold Along.next
    cases ((f.view database s₂).bet bet.id).filter fun b => b.status == .ACTIVE with
    | none => exact hnone honward rfl
    | some row =>
      dsimp only
      unfold assertChecks
      cases (u.row row).violated with
      | some constraint => exact hnone honward rfl
      | none =>
        refine ⟨honward, fun id v hv => ?_⟩
        rcases List.mem_append.1 hv with hv | hv
        · exact (hnone honward rfl).2 id v hv
        · cases List.mem_singleton.1 hv
          exact ⟨rfl, rfl⟩

/-- A part that writes no bet. -/
theorem ClosesOnly.within {α : Type} {tables : List Table} {now : Time} {h' : List (Moment Db Write Inputs)}
    (hI : ClosesOnly h bet now h' f) (ht : .bets ∉ tables) {p : Action α} (hp : Touches tables p) :
    p.Along database HadRead h' f fun _ => ClosesOnly h bet now := by
  refine (along_within hp).mono fun _ h'' f'' hend => ?_
  obtain ⟨honward, rows, hrows, htables⟩ := hend
  refine ⟨hI.1.trans honward, fun id v hv => ?_⟩
  rw [hrows] at hv
  rcases List.mem_append.1 hv with hv | hv
  · exact hI.2 id v hv
  · exact absurd (htables _ hv) ht

/-- The bet that is paid is the only one that is closed. -/
theorem payCashOut_along {game : GameKind} {now : Time} {multiplierBp : ℤ} (hf : f.pending = []) :
    (payCashOut input bet game now multiplierBp).Along database HadRead h f fun _ =>
      ClosesOnly h bet now := by
  refine Along.bind (along_check ?_)
  cases basisPointsFromRaw multiplierBp with
  | error e => exact .nil hf
  | ok multiplier =>
    refine Along.next_ok (Along.bind (along_check ?_))
    cases bet.stakeMinor.applyMultiplier multiplier with
    | error e => exact ClosesOnly.nil hf
    | ok payout =>
      refine Along.next_ok (Along.bind (along_check ?_))
      cases Money.sub payout bet.stakeMinor with
      | error e => exact ClosesOnly.nil hf
      | ok profit =>
        refine Along.next_ok (Along.seq (updateActiveBet_along hf) fun updated h' f' hI =>
          hI.within (by simp) (?_ : Touches [.ledger, .notifications] _))
        cases updated with
        | none => trivial
        | some updated =>
          exact Within.bind getWalletAccountId_touches fun _ =>
            Within.bind (postEnlisted_touches.more (by simp)) fun _ =>
              Within.bind Within.select fun _ => Within.bind getBalance_touches fun _ =>
                Within.bind (publish_touches.more (by simp)) fun _ =>
                  Within.bind (publish_touches.more (by simp)) fun _ =>
                    Within.bind (publish_touches.more (by simp)) fun _ => trivial

/-- It is closed after the round has been seen running, at the time that was read then. -/
theorem cashOutActive_along {s₁ : Db} (hseen : .saw s₁ ∈ h) (hbet : s₁.bet bet.id = some bet)
    (hf : f.pending = []) :
    (cashOutActive input bet).Along database HadRead h f fun _ => HadRead := by
  refine Along.bind (along_select fun s₂ => ?_)
  have hview : f.view database s₂ = s₂ := by
    unfold Standing.view
    rw [hf]
    rfl
  rw [hview]
  refine Along.next_ok ?_
  cases hround : s₂.round bet.roundId with
  | none => exact HadRead.nil hf
  | some round =>
    dsimp only
    split
    case h_2 => exact HadRead.nil hf
    case h_1 =>
    split
    case h_2 => exact HadRead.nil hf
    case h_1 startedAt hstatus hstarted =>
    refine Along.bind fun x => Along.next_ok ?_
    split
    · exact HadRead.nil hf
    · refine Along.mono ?_ (payCashOut_along hf)
      rintro r h' f' ⟨⟨h₂, rfl⟩, honly⟩ id u hu
      obtain ⟨rfl, hsettled⟩ := honly id u hu
      refine ⟨x, h ++ [.saw s₂], h₂, s₁, s₂, bet, round, by simp, hsettled,
        List.mem_append_left _ hseen, hbet, by simp, hround, hstatus⟩

/-- Every bet that `cashOut` commits was closed so. -/
theorem cashOut_along : (cashOut input).Along database HadRead [] {} fun _ _ _ => True := by
  refine Along.transaction (Along.mono (Q := fun _ => HadRead) (fun r h' f' hread => ?_)
    (Along.bind (along_selectForLock (fun s₁ => HadRead.nil rfl) fun s₁ s₂ k => ?_)))
  · cases r with
    | ok view => exact ⟨hread, trivial, fun _ => trivial⟩
    | error e => trivial
  · show Along.next _ _ _ _ (.ok ((s₂.bet input.betId).filter fun b => b.userId == input.userId))
      _ _
    cases hrow : (s₂.bet input.betId).filter fun b => b.userId == input.userId with
    | none => exact HadRead.nil rfl
    | some bet =>
      obtain ⟨hfound, -⟩ := Option.filter_eq_some_iff.1 hrow
      have hid : bet.id = input.betId := lookup_key hfound
      refine Along.next_ok ?_
      dsimp only
      cases bet.status with
      | ACTIVE => exact cashOutActive_along (by simp) (hid ▸ hfound) rfl
      | _ => exact HadRead.nil rfl

/-! ## In every run -/

/-- The clock was read, as `now`, by a cash-out of the bet that had read its round as running. -/
def ReadWhileRunning (config : Config) (crypto : Crypto) (w : System) (b : Bet) (now : Time) :
    Prop :=
  ∃ i w₁ w₂ w₃ w₄ x r, Reaches config crypto w₁ ∧
    TakesIn database (program config crypto) i (.cashOut ⟨b.userId, b.id⟩) (.saw w₁.db) w₁ w₂ ∧
    w₁.db.round b.roundId = some r ∧ r.status = .RUNNING ∧
    World.Run database (program config crypto) (fun _ _ => True) w₂ w₃ ∧
    TakesIn database (program config crypto) i (.cashOut ⟨b.userId, b.id⟩) (.took x) w₃ w₄ ∧
    x.now = now ∧ World.Run database (program config crypto) (fun _ _ => True) w₄ w

/-- What was read stays so. -/
theorem ReadWhileRunning.later {w w' : System} {b b' : Bet} {now : Time}
    (h : ReadWhileRunning config crypto w b now)
    (hr : World.Run database (program config crypto) (fun _ _ => True) w w')
    (hcore : b'.core = b.core) : ReadWhileRunning config crypto w' b' now := by
  have hid : b'.core.id = b.core.id := congrArg Bet.id hcore
  have huser : b'.core.userId = b.core.userId := congrArg Bet.userId hcore
  have hround : b'.core.roundId = b.core.roundId := congrArg Bet.roundId hcore
  change b'.id = b.id at hid
  change b'.userId = b.userId at huser
  change b'.roundId = b.roundId at hround
  obtain ⟨i, w₁, w₂, w₃, w₄, x, r, hw₁, hsaw, hrow, hstatus, h₂₃, htook, hnow, h₄⟩ := h
  refine ⟨i, w₁, w₂, w₃, w₄, x, r, hw₁, ?_, ?_, hstatus, h₂₃, ?_, hnow, h₄.trans hr⟩
  · rw [hid, huser]
    exact hsaw
  · rw [hround]
    exact hrow
  · rw [hid, huser]
    exact htook

/-- What every session of a run commits, it had read. -/
theorem reachable_recorded {w : System} (h : Reaches config crypto w) :
    Recorded database (program config crypto) (fun _ _ => True) Call.taken
      (fun _ _ _ _ => True) ⟨migrated, []⟩ w := by
  refine chronicled (fun c => ?_) (fun _ _ _ => trivial) rfl h
  cases c with
  | cashOut input => exact Along.map cashOut_along
  | _ => exact Along.of_forall (fun _ _ => trivial) fun _ _ _ => trivial

/-- A cash-out that commits the update of a bet had read its round as running, and then the
clock. -/
theorem HadRead.whileRunning {w : System} {i : ℕ} {b : Bet} {u : BetUpdate} (hread : HadRead h f)
    (hc : Chronicle database (program config crypto) (fun _ _ => True) ⟨migrated, []⟩ i
      (.cashOut ⟨b.userId, b.id⟩) h w) (hu : .updateBet b.id u ∈ f.pending)
    (hb : w.db.bet b.id = some b) : ReadWhileRunning config crypto w b u.settledAt := by
  obtain ⟨x, h₁, h₂, s₁, s₂, bet, r, hsplit, hsettled, hs₁, hbet, hs₂, hround, hstatus⟩ :=
    hread b.id u hu
  obtain ⟨w₃, w₄, -, hc₃, htook, -, h₄⟩ := hc.split hsplit
  obtain ⟨h₃, h₃', hsplit₃⟩ := List.append_of_mem hs₂
  obtain ⟨w₁, w₂, -, hc₁, hsaw, -, h₂₃⟩ := hc₃.split hsplit₃
  obtain ⟨h₅, h₅', hsplit₅⟩ := List.append_of_mem hs₁
  obtain ⟨w₅, w₆, -, hc₅, hsaw', -, h₆⟩ := hc₃.split hsplit₅
  obtain rfl := hsaw.saw_db
  obtain rfl := hsaw'.saw_db
  -- the bet that was read is on the same round
  have hlater : World.Run database (program config crypto) (fun _ _ => True) w₅ w := by
    obtain ⟨y, t, -, -, -, hstep⟩ := hsaw'
    obtain ⟨z, t', -, -, -, hstep'⟩ := htook
    exact (World.Run.tail (.refl w₅) trivial hstep).trans
      (h₆.trans ((World.Run.tail (.refl w₃) trivial hstep').trans h₄))
  have hgrows : Grows w₅.db w.db := (reachable_history hc₅.run hlater).toGrows
  obtain ⟨b', hb', hcore⟩ := hgrows.bet hbet
  obtain rfl : b' = b := Option.some.inj (hb'.symm.trans hb)
  have hsame : b'.core.roundId = bet.core.roundId := congrArg Bet.roundId hcore
  change b'.roundId = bet.roundId at hsame
  exact ⟨i, w₁, w₂, w₃, w₄, x, r, hc₁.run, hsaw, hsame ▸ hround, hstatus, h₂₃, htook,
    hsettled.symm, h₄⟩

/-- A commit, by a session and of effects that its call may have. -/
structure Commit (config : Config) (crypto : Crypto) (w w' : System) (i : ℕ) (t : Client)
    (es : List Effect) : Prop where
  session : w.sessions[i]? = some t
  pending : t.standing.pending = rowsOf es
  done : Done config w.db es
  bets : BetChange t.call w.db (rowsOf es)
  after : w'.db = database.applyAll w.db (rowsOf es)
  had : ∃ h, Chronicle database (program config crypto) (fun _ _ => True) ⟨migrated, []⟩ i
    t.call h w ∧ t.call.taken h t.standing

/-- What one event does to the bets. -/
theorem step_bets {w w' : System} {e : Event Inputs Call} (h : Reaches config crypto w)
    (he : w.step database (program config crypto) e = some w') :
    w'.db.bets = w.db.bets ∨ ∃ i x t es, e = .run i x ∧ Commit config crypto w w' i t es := by
  cases e with
  | start c =>
    cases he
    exact .inl rfl
  | kill i =>
    simp only [World.step, Option.map_eq_some_iff] at he
    obtain ⟨t, -, rfl⟩ := he
    exact .inl rfl
  | run i x =>
    have hR := (outcomes_base config).regular
    obtain ⟨t, ht, hsame | ⟨next, hp, hcommits, hafter⟩ | ⟨row, hdraws, hafter⟩⟩ :=
      (reachable_paid h).acts hR (admits_paid w _) he
    · exact .inl (by rw [hsame])
    · obtain ⟨⟨⟨es, hrows, hdone, -⟩, -⟩, hbets⟩ := hcommits
      obtain ⟨h', hc, halong⟩ := reachable_recorded h i t ht
      rw [hp] at halong
      rw [hrows] at hafter hbets
      exact .inr ⟨i, x, t, es, rfl, ht, hrows, hdone, hbets, hafter, h', hc, halong.1⟩
    · left
      rw [hafter]
      exact (sameBooks_draw hdraws.1.1).1.bets

/-- Every win of a crash bet goes back to a cash-out that had read the round as running. -/
theorem reachable_readWhileRunning {w : System} (h : Reaches config crypto w) :
    ∀ b ∈ w.db.bets, b.status = .WON → ∀ r, w.db.round b.roundId = some r → r.game = .CRASH →
      ∃ now, b.settledAt = some now ∧ ReadWhileRunning config crypto w b now := by
  induction h with
  | refl => exact List.forall_mem_nil _
  | @tail w w' e hrun _ he ih =>
    intro b' hb' hwon r' hr' hgame
    have hone : World.Run database (program config crypto) (fun _ _ => True) w w' :=
      .tail (.refl w) trivial he
    have hsound := reachable_paid hrun
    have hgameOf : ∀ {b r}, w.db.round b = some r → w'.db.round b = some r' → r.game = .CRASH := by
      intro id r hr hr''
      obtain ⟨r₁, hr₁, hbecomes⟩ := reaches_roundsMove hrun hone _ r hr
      obtain rfl : r₁ = r' := Option.some.inj (hr₁.symm.trans hr'')
      have hcore : r₁.core.game = r.core.game := congrArg Round.game hbecomes.core
      exact hcore.symm.trans hgame
    -- a bet that was there goes on as it was
    have hold : b' ∈ w.db.bets → ∃ now, b'.settledAt = some now ∧
        ReadWhileRunning config crypto w' b' now := by
      intro hb
      obtain ⟨r, hr, -⟩ := hsound.inv.2 b' hb
      obtain ⟨now, hnow, hread⟩ := ih b' hb hwon r hr (hgameOf hr hr')
      exact ⟨now, hnow, hread.later hone rfl⟩
    rcases step_bets hrun he with hsame | ⟨i, x, t, es, rfl, C⟩
    · rw [hsame] at hb'
      exact hold hb'
    · rw [C.after] at hb'
      rcases C.bets.row hsound.inv.1.1 C.done hb' with hb | ⟨r, -, hactive, -⟩ |
        ⟨b, u, r, outcome, hb, rfl, hu, hr, hclosed, -⟩
      · exact hold hb
      · rw [hactive] at hwon
        cases hwon
      · have hcrash := hgameOf hr hr'
        cases hclosed with
        | @cashedOut input now startedAt crash payout hcall hid huser =>
          obtain ⟨h', hc, htaken⟩ := C.had
          obtain rfl : input = ⟨b.userId, b.id⟩ := by
            rw [hid, huser]
          rw [hcall] at hc htaken
          rw [← C.pending] at hu
          have hkeyed : Keyed w.db := hsound.inv.1.1.keyed
          refine ⟨now, rfl, ReadWhileRunning.later ?_ hone (BetUpdate.row_core _ b)⟩
          exact HadRead.whileRunning htaken hc hu (lookup_of_mem hkeyed.bets hb)
        | won _ hroulette =>
          rw [hcrash] at hroulette
          cases hroulette
        | lost => cases hwon
        | refunded => cases hwon

/-- A cash-out leaves every bet on a roulette round as it is. -/
theorem cashOut_leaves {w w' : System} (h : Reaches config crypto w) {i : ℕ} {x : Inputs}
    {t : Client} {input : CashOutInput}
    (he : w.step database (program config crypto) (.run i x) = some w')
    (ht : w.sessions[i]? = some t) (hcall : t.call = .cashOut input) {b : Bet}
    (hb : b ∈ w.db.bets) {r : Round} (hr : w.db.round b.roundId = some r)
    (hgame : r.game = .ROULETTE) : w'.db.bet b.id = some b := by
  have hsound := reachable_paid h
  have hkeyed : Keyed w.db := hsound.inv.1.1.keyed
  have hfound := lookup_of_mem hkeyed.bets hb
  rcases step_bets h he with hsame | ⟨j, y, t', es, hevent, C⟩
  · unfold Db.bet
    rw [hsame]
    exact hfound
  · cases hevent
    obtain rfl : t' = t := Option.some.inj (C.session.symm.trans ht)
    rw [C.after]
    rcases C.done.bet hfound with hkept | ⟨u, hu, -, -⟩
    · exact hkept
    · have hbets := C.bets
      rw [hcall] at hbets
      cases hbets with
      | placed _ _ _ honly =>
        have hmem : Write.updateBet b.id u ∈ rowsOn .bets (rowsOf es) :=
          List.mem_filter.2 ⟨hu, rfl⟩
        rw [honly] at hmem
        cases List.mem_singleton.1 hmem
      | closed outcome each =>
        obtain ⟨id, u', b₀, r₀, hw, hb₀, hr₀, hclosed, -⟩ :=
          each _ (List.mem_filter.2 ⟨hu, rfl⟩)
        cases hw
        obtain rfl : b₀ = b := Option.some.inj (hb₀.symm.trans hfound)
        obtain rfl : r₀ = r := Option.some.inj (hr₀.symm.trans hr)
        cases hclosed with
        | cashedOut _ _ _ hcrash =>
          rw [hgame] at hcrash
          cases hcrash
        | won hengine => exact absurd rfl (hengine input)
        | lost hengine => exact absurd rfl (hengine input)
        | refunded hengine => exact absurd rfl (hengine input)

/-- Along every run each bet is paid as the rules say: a crash bet is won at a multiplier that a
cash-out of it read while the round was running, and no cash-out touches a roulette bet. -/
theorem reachable_paidOut {w : System} (h : Reaches config crypto w) :
    (∀ b ∈ w.db.bets, ∃ r, w.db.round b.roundId = some r ∧ b.PaidOut r ∧
      (b.status = .WON → r.game = .CRASH →
        ∃ now, b.settledAt = some now ∧ ReadWhileRunning config crypto w b now)) ∧
      ∀ i x w' t input, w.step database (program config crypto) (.run i x) = some w' →
        w.sessions[i]? = some t → t.call = .cashOut input → ∀ b ∈ w.db.bets, ∀ r,
          w.db.round b.roundId = some r → r.game = .ROULETTE → w'.db.bet b.id = some b := by
  refine ⟨fun b hb => ?_, fun i x w' t input he ht hcall b hb r hr hgame => ?_⟩
  · obtain ⟨r, hr, hpaid⟩ := (reachable_paid h).inv.2 b hb
    exact ⟨r, hr, hpaid, fun hwon hgame => reachable_readWhileRunning h b hb hwon r hr hgame⟩
  · exact cashOut_leaves h he ht hcall hb hr hgame

end

/-- A user stakes 300 on a crash round and cashes out half a second into it. -/
def crashGame : List (Event Inputs Call) :=
  .start (.register ⟨"ann", "Ann", "secret"⟩) :: turns 0 50 0 ++
  .start (.openRoundIfDue .CRASH) :: turns 1 40 100 ++
  .start (.placeBet ⟨uuidAt 2, uuidAt 109, 300, "c", none⟩) :: turns 2 50 200 ++
  .start (.lockRound (uuidAt 109)) :: turns 3 20 300 ++
  .start (.startRound (uuidAt 109)) :: turns 4 20 400 1000 ++
  .start (.cashOut ⟨uuidAt 2, uuidAt 206⟩) :: turns 5 60 500 1500

/-- The bet is won at 1.051, and goes back to the cash-out. -/
theorem reachable_paidOut_crashGame :
    ((executed crashGame).db.bets.map fun b => (b.status, b.settledMultiplierBp)) =
        [(.WON, some 10510)] ∧
      ∀ b ∈ (executed crashGame).db.bets, ∃ r,
        (executed crashGame).db.round b.roundId = some r ∧ b.PaidOut r ∧
          (b.status = .WON → r.game = .CRASH → ∃ now, b.settledAt = some now ∧
            ReadWhileRunning smallConfig plainCrypto (executed crashGame) b now) :=
  ⟨by decide +kernel, (reachable_paidOut (reaches_executed crashGame)).1⟩

end Tessera
