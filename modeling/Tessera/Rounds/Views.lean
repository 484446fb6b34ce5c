import Tessera.Rounds.Told
import Tessera.Rounds.Selections
import Tessera.Books.Constraints
import Tessera.Transactions.Executed

/-!
# The views in which bets are shown

A view is made of the row of a bet and of a game, which the row does not have.  The request that
places a bet passes the game of its round; every other path leaves it to the default, `CRASH`.

* `getUserBetsForRound`, `getUserBets` — the lists of bets;
* `Produced` — the views that are answered, published or listed in the course of a run;
* `placeBet_along`, `cashOut_along_answer` — where the row of an answer comes from;
* `Produced.shows` — a view shows its row as the row then was;
* `produced_views` — when a view names the game of its round, and when two views agree.

Source: `src/src/rounds/bet-view.mapper.ts`, `src/src/rounds/rounds.service.ts`.
-/

namespace Tessera

open Relational Transactions Transactions.Program

/-- Source: `RoundsService.getUserBetsForRound`. -/
def getUserBetsForRound (order : RowOrder) (userId roundId : Uuid) (s : Db) : List BetView :=
  let rows := order.permute (s.bets.filter fun b => b.userId == userId && b.roundId == roundId)
  (rows.insertionSort fun a b => a.createdAt ≤ b.createdAt).map fun r => toBetView r

/-- Source: `RoundsService.getUserBets`. -/
def getUserBets (order : RowOrder) (userId : Uuid) (s : Db) (limit : ℤ := 50) : List BetView :=
  let rows := order.permute (s.bets.filter fun b => b.userId == userId)
  ((rows.insertionSort fun a b => b.createdAt ≤ a.createdAt).take (min (max limit 1) 200).toNat).map
    fun r => toBetView r

/-- The write of a bet that is placed. -/
def Write.placesBet : Write → Bool
  | .insertBet _ => true
  | _ => false

/-- What is committed places a bet. -/
def placesBet : Moment Db Write Inputs → Bool
  | .wrote rows => rows.any Write.placesBet
  | _ => false

section
variable (config : Config) (crypto : Crypto) (events : List (Event Inputs Call))

/-- The world after a list of events. -/
abbrev runOf : System := World.attempt database (program config crypto) ⟨migrated, []⟩ events

/-- What the `i`-th session has seen and committed in the course of the events. -/
abbrev momentsOf (i : ℕ) : List (Moment Db Write Inputs) :=
  World.moments database (program config crypto) i ⟨migrated, []⟩ events

/-- A view that is answered, published or listed in the course of the events.  It is the first one
when it is the answer of the request that has placed the bet. -/
inductive Produced : Bool → BetView → Prop
  | placed (i : ℕ) (t : Client) (input : PlaceBetInput) (view : BetView) :
      (runOf config crypto events).sessions[i]? = some t → t.call = .placeBet input →
      t.answer = some (.ok (.bet view)) →
      Produced ((momentsOf config crypto events i).any placesBet) view
  | cashedOut (i : ℕ) (t : Client) (input : CashOutInput) (view : BetView) :
      (runOf config crypto events).sessions[i]? = some t → t.call = .cashOut input →
      t.answer = some (.ok (.bet view)) → Produced false view
  | published (userId : Uuid) (view : BetView) :
      .betSettled userId view ∈ (runOf config crypto events).db.delivered → Produced false view
  | betsForRound (before after : List (Event Inputs Call)) (order : RowOrder)
      (userId roundId : Uuid) (view : BetView) : before ++ after = events →
      view ∈ getUserBetsForRound order userId roundId (runOf config crypto before).db →
      Produced false view
  | bets (before after : List (Event Inputs Call)) (order : RowOrder) (userId : Uuid) (limit : ℤ)
      (view : BetView) : before ++ after = events →
      view ∈ getUserBets order userId (runOf config crypto before).db limit →
      Produced false view

end

/-- The view that a session has answered with. -/
def answeredBet (t : Client) : Option BetView :=
  match t.answer with
  | some (.ok (.bet view)) => some view
  | _ => none

/-- A bet that a session has answered is its answer. -/
theorem answer_of_answeredBet {t : Client} {view : BetView} (h : answeredBet t = some view) :
    t.answer = some (.ok (.bet view)) := by
  unfold answeredBet at h
  split at h
  case h_1 view' heq =>
    rw [heq, Option.some.inj h]
  case h_2 => cases h

/-- A bet that a session has answered is produced by its run. -/
theorem produced_answeredBet {events : List (Event Inputs Call)} {i : ℕ} {input : PlaceBetInput}
    {first : Bool} {view : BetView}
    (hcall : (executed events).sessions[i]?.map Session.call = some (.placeBet input))
    (hview : (executed events).sessions[i]?.bind answeredBet = some view)
    (hfirst : (momentsOf smallConfig plainCrypto events i).any placesBet = first) :
    Produced smallConfig plainCrypto events first view := by
  obtain ⟨t, ht, hc⟩ := Option.map_eq_some_iff.1 hcall
  rw [ht] at hview
  rw [← hfirst]
  exact .placed i t input view ht hc (answer_of_answeredBet hview)

/-! ## Where an answer comes from -/

section
variable {h : List (Moment Db Write Inputs)} {f : Standing Db LockKey Write} {view : BetView}

/-- The view is of a row that has been read. -/
def Recalled (view : BetView) (h : List (Moment Db Write Inputs)) : Prop :=
  ∃ s b, .saw s ∈ h ∧ b ∈ s.bets ∧ view = toBetView b

/-- The view is of the only row of a bet among the writes, and it names the game of its round. -/
def PlacedAs (view : BetView) (h : List (Moment Db Write Inputs)) (rows : List Write) : Prop :=
  ∃ b r s, rowsOn .bets rows = [.insertBet b] ∧ .saw s ∈ h ∧ s.round b.roundId = some r ∧
    view = toBetView b r.game

/-- Writes without a bet place none. -/
theorem any_placesBet_eq_false {rows : List Write} (h : rowsOn .bets rows = []) :
    rows.any Write.placesBet = false := by
  rw [List.any_eq_false]
  intro w hw hplaces
  have htable : w.table = .bets := by
    cases w with
    | insertBet b => rfl
    | _ => cases hplaces
  have hmem : w ∈ rowsOn .bets rows := List.mem_filter.2 ⟨hw, beq_iff_eq.2 htable⟩
  rw [h] at hmem
  cases hmem

/-- The one bet that is written is placed. -/
theorem any_placesBet_eq_true {rows : List Write} {b : Bet}
    (h : rowsOn .bets rows = [.insertBet b]) : rows.any Write.placesBet = true := by
  have hmem : Write.insertBet b ∈ rowsOn .bets rows := by simp [h]
  exact List.any_eq_true.2 ⟨_, (List.mem_filter.1 hmem).1, rfl⟩

/-- A session that has committed nothing has placed no bet. -/
theorem any_moments_eq_false (h' : ∀ rows, .wrote rows ∉ h) : h.any placesBet = false := by
  rw [List.any_eq_false]
  intro m hm
  cases m with
  | wrote rows => exact absurd hm (h' rows)
  | _ => simp [placesBet]

/-- The bet that is found by its key is in the table. -/
theorem findByIdempotencyKey_mem {userId : Uuid} {key : String} {s : Db} {b : Bet}
    (h : findByIdempotencyKey userId key s = some b) : b ∈ s.bets :=
  List.mem_of_find?_eq_some h

/-- A part that writes no bet. -/
theorem Along.lastBet {α : Type} {tables : List Table} {p : Action α}
    {Q : Except AppError α → List (Moment Db Write Inputs) → Standing Db LockKey Write → Prop}
    (hp : Touches tables p) (ht : .bets ∉ tables)
    (hQ : ∀ r h' f', h <+: h' → rowsOn .bets f'.pending = rowsOn .bets f.pending → Q r h' f') :
    p.Along database anyCommit h f Q := by
  refine (along_within hp).mono fun r h' f' hend => ?_
  obtain ⟨honward, rows, hrows, htables⟩ := hend
  have hnone : rowsOn .bets rows = [] :=
    rowsOn_eq_nil fun w hw heq => ht (heq ▸ htables w hw)
  refine hQ r h' f' honward ?_
  rw [hrows, rowsOn_append, hnone, List.append_nil]

/-- A part that writes no bet, before the rest of a transaction. -/
theorem Along.thenBet {α β : Type} {tables : List Table} {p : Action β} {k : β → Action α}
    {Q : Except AppError α → List (Moment Db Write Inputs) → Standing Db LockKey Write → Prop}
    (hp : Touches tables p) (ht : .bets ∉ tables)
    (hk : ∀ a h' f', h <+: h' → rowsOn .bets f'.pending = rowsOn .bets f.pending →
      (k a).Along database anyCommit h' f' Q) (herror : ∀ e h' f', Q (.error e) h' f') :
    (p >>= k).Along database anyCommit h f Q := by
  refine Along.bind (Along.lastBet hp ht fun r h' f' honward hsame => ?_)
  cases r with
  | ok a => exact hk a h' f' honward hsame
  | error e => exact herror e h' f'

/-- A condition that is tested writes nothing. -/
theorem ensure_touches (tables : List Table) {condition : Bool} {e : AppError} :
    Touches tables (ensure condition e) := Within.ensure

/-- A read writes nothing. -/
theorem select_touches {α : Type} (tables : List Table) {show_ : Db → α} :
    Touches tables (select show_) := Within.select

/-- A bet that is inserted is the only one among the writes. -/
theorem insertBet_along {b : Bet} (hf : rowsOn .bets f.pending = []) :
    (insertBet b).Along database anyCommit h f fun r h' f' =>
      r = .ok () → h <+: h' ∧ rowsOn .bets f'.pending = [.insertBet b] := by
  have herror : ∀ (e : AppError) (h' : List (Moment Db Write Inputs))
      (f' : Standing Db LockKey Write), (.error e : Except AppError Unit) = .ok () →
        h <+: h' ∧ rowsOn .bets f'.pending = [.insertBet b] := by
    intro e h' f' heq
    cases heq
  refine Along.thenBet assertChecks_touches List.not_mem_nil (fun _ h₁ f₁ ho₁ hf₁ => ?_) herror
  refine Along.thenBet claim_touches List.not_mem_nil (fun _ h₂ f₂ ho₂ hf₂ => ?_) herror
  refine Along.thenBet claim_touches List.not_mem_nil (fun _ h₃ f₃ ho₃ hf₃ => ?_) herror
  refine Along.bind (along_put (Along.next_ok ?_))
  have hrows : rowsOn .bets (f₃.wrote (.insertBet b)).pending = [.insertBet b] := by
    show rowsOn .bets (f₃.pending ++ [.insertBet b]) = _
    rw [rowsOn_append, hf₃, hf₂, hf₁, hf]
    rfl
  refine Along.thenBet assertReference_touches List.not_mem_nil (fun _ h₄ f₄ ho₄ hf₄ => ?_) herror
  refine Along.lastBet assertReference_touches List.not_mem_nil fun _ h₅ f₅ ho₅ hf₅ _ => ?_
  refine ⟨ho₁.trans (ho₂.trans (ho₃.trans (ho₄.trans ho₅))), ?_⟩
  rw [hf₅, hf₄, hrows]

/-- What the request that places a bet answers with. -/
theorem recordBet_along {input : PlaceBetInput} {stake : Money} {r : Round}
    {priced : PricedSelection} {walletId : Uuid} {s : Db} (hs : .saw s ∈ h)
    (hr : s.round input.roundId = some r) (hf : rowsOn .bets f.pending = []) :
    (recordBet input stake r.game priced walletId).Along database anyCommit h f
      fun result h' f' => ∀ view, result = .ok view → PlacedAs view h' f'.pending := by
  have herror : ∀ (e : AppError) (h' : List (Moment Db Write Inputs))
      (f' : Standing Db LockKey Write), ∀ view, (.error e : Except AppError BetView) = .ok view →
        PlacedAs view h' f'.pending := by
    intro e h' f' view heq
    cases heq
  refine Along.bind_read fun x => ?_
  refine Along.thenBet (ensure_touches []) List.not_mem_nil (fun _ h₁ f₁ ho₁ hf₁ => ?_) herror
  refine Along.bind ((insertBet_along (hf₁.trans hf)).mono fun result h₂ f₂ hend => ?_)
  cases result with
  | error e => exact herror e h₂ f₂
  | ok _ =>
    obtain ⟨ho₂, hrows⟩ := hend rfl
    refine Along.thenBet postEnlisted_touches (by simp) (fun _ h₃ f₃ ho₃ hf₃ => ?_) herror
    refine Along.thenBet (select_touches []) List.not_mem_nil (fun _ h₄ f₄ ho₄ hf₄ => ?_) herror
    refine Along.thenBet getBalance_touches List.not_mem_nil (fun _ h₅ f₅ ho₅ hf₅ => ?_) herror
    refine Along.thenBet publish_touches (by simp) (fun _ h₆ f₆ ho₆ hf₆ => ?_) herror
    refine Along.thenBet publish_touches (by simp) (fun _ h₇ f₇ ho₇ hf₇ => ?_) herror
    intro view heq
    cases heq
    have honward : h <+: h₇ := (List.prefix_append _ _).trans (ho₁.trans (ho₂.trans (ho₃.trans
      (ho₄.trans (ho₅.trans (ho₆.trans ho₇))))))
    refine ⟨_, r, s, ?_, honward.subset hs, hr, rfl⟩
    rw [hf₇, hf₆, hf₅, hf₄, hf₃, hrows]

/-- What a transaction of `placeBet` is about to commit, and to answer with. -/
def Answering (view : BetView) (h : List (Moment Db Write Inputs)) (rows : List Write) : Prop :=
  rowsOn .bets rows = [] ∧ Recalled view h ∨ PlacedAs view h rows

/-- The answer of `placeBet` shows the bet that it found or the one that it is about to commit. -/
theorem placeBetTransaction_along {input : PlaceBetInput} {stake : Money} :
    (placeBetTransaction input stake).Along database anyCommit [] {}
      fun result h' f' => (∀ rows, .wrote rows ∉ h') ∧
        ∀ view, result = .ok view → Answering view h' f'.pending := by
  have herror : ∀ (e : AppError) (h' : List (Moment Db Write Inputs))
      (f' : Standing Db LockKey Write), ∀ view, (.error e : Except AppError BetView) = .ok view →
        Answering view h' f'.pending := by
    intro e h' f' view heq
    cases heq
  have hnothing : (placeBetTransaction input stake).Along database anyCommit [] {}
      fun _ h' _ => ∀ rows, .wrote rows ∈ h' → Moment.wrote rows ∈ [] :=
    along_uncommitted placeBetTransaction_touches
  refine (Along.and hnothing ?_).mono fun r h' f' hend =>
    ⟨fun rows hmem => absurd (hend.1 rows hmem) List.not_mem_nil, hend.2⟩
  refine Along.bind (along_select fun s => Along.next_ok ?_)
  rw [view_nil rfl]
  cases hfound : findByIdempotencyKey input.userId input.idempotencyKey s with
  | some replay =>
    intro view heq
    cases heq
    exact .inl ⟨rfl, s, replay, by simp, findByIdempotencyKey_mem hfound, rfl⟩
  | none =>
    refine Along.bind (along_selectForLock (fun s₁ => herror _ _ _) fun s₁ s₂ k => ?_)
    rw [view_nil rfl]
    refine Along.next_ok ?_
    cases hround : s₂.round input.roundId with
    | none => exact herror _ _ _
    | some round =>
      dsimp only
      split
      · exact herror _ _ _
      · refine Along.bind (along_check ?_)
        cases priceSelection round.game input.selection with
        | error e => exact herror _ _ _
        | ok priced =>
          refine Along.next_ok (Along.thenBet getWalletAccountId_touches List.not_mem_nil
            (fun walletId h₁ f₁ ho₁ hf₁ => ?_) herror)
          refine Along.thenBet lockAndAssertSufficient_touches List.not_mem_nil
            (fun _ h₂ f₂ ho₂ hf₂ => ?_) herror
          have hs : .saw s₂ ∈ h₂ := (ho₁.trans ho₂).subset (by simp)
          refine (recordBet_along hs hround ?_).mono fun r h₃ f₃ hend view heq =>
            .inr (hend view heq)
          rw [hf₂, hf₁]
          rfl

/-- What `placeBet` answers with: the first time the row that it has committed and the game of its
round, every other time a row that it has read. -/
theorem placeBet_along {config : Config} {input : PlaceBetInput} :
    (placeBet config input).Along database anyCommit [] {} fun result h' _ =>
      ∀ view, result = .ok view →
        (h'.any placesBet = false ∧ Recalled view h') ∨
        (h'.any placesBet = true ∧ ∃ rows, .wrote rows ∈ h' ∧ PlacedAs view h' rows) := by
  have herror : ∀ (e : AppError) (h' : List (Moment Db Write Inputs)),
      ∀ view, (.error e : Except AppError BetView) = .ok view →
        (h'.any placesBet = false ∧ Recalled view h') ∨
        (h'.any placesBet = true ∧ ∃ rows, .wrote rows ∈ h' ∧ PlacedAs view h' rows) := by
    intro e h' view heq
    cases heq
  have hrecover : ∀ (e : AppError) (h : List (Moment Db Write Inputs))
      (f : Standing Db LockKey Write), (∀ rows, .wrote rows ∉ h) →
      (placeBetRecover input e).Along database anyCommit h f.ended fun result h' _ =>
        ∀ view, result = .ok view →
          (h'.any placesBet = false ∧ Recalled view h') ∨
          (h'.any placesBet = true ∧ ∃ rows, .wrote rows ∈ h' ∧ PlacedAs view h' rows) := by
    intro e h f hnone
    unfold placeBetRecover
    split
    · refine Along.bind (along_select fun s => Along.next_ok ?_)
      rw [view_nil rfl]
      cases hfound : findByIdempotencyKey input.userId input.idempotencyKey s with
      | none => exact herror _ _
      | some existing =>
        intro view heq
        cases heq
        refine .inl ⟨any_moments_eq_false fun rows hmem => ?_, s, existing, by simp,
          findByIdempotencyKey_mem hfound, rfl⟩
        rcases List.mem_append.1 hmem with hmem | hmem
        · exact hnone rows hmem
        · cases List.mem_singleton.1 hmem
    · exact herror _ _
  unfold placeBet
  split
  · exact herror _ _
  · refine Along.bind (along_check ?_)
    cases Money.fromMinor input.stakeMinor with
    | error e => exact herror _ _
    | ok stake =>
      refine Along.next_ok (Along.handle (Along.transaction
        (placeBetTransaction_along.mono fun result h f hend => ?_)))
      obtain ⟨hnone, hanswer⟩ := hend
      cases result with
      | error e => exact hrecover e h f hnone
      | ok view =>
        refine ⟨trivial, fun view' heq => ?_, fun e => hrecover e h f hnone⟩
        cases heq
        have hsub : h ⊆ h ++ [.wrote f.pending] := List.subset_append_left _ _
        rcases hanswer view rfl with ⟨hrows, s, b, hs, hb, hview⟩ | ⟨b, r, s, hrows, hs, hr, hview⟩
        · refine .inl ⟨?_, s, b, hsub hs, hb, hview⟩
          rw [List.any_append, any_moments_eq_false hnone]
          simp [placesBet, any_placesBet_eq_false hrows]
        · refine .inr ⟨?_, f.pending, by simp, b, r, s, hrows, hsub hs, hr, hview⟩
          simp [placesBet, any_placesBet_eq_true hrows]

/-- What `cashOut` answers with: a row that it has read, or what it has published. -/
theorem cashOut_along_answer {input : CashOutInput} :
    (cashOut input).Along database anyCommit [] {} fun result h' _ =>
      ∀ view, result = .ok view → Recalled view h' ∨
        ∃ rows, .wrote rows ∈ h' ∧ .notify (.betSettled input.userId view) ∈ rows := by
  have herror : ∀ (e : AppError) (h' : List (Moment Db Write Inputs))
      (f' : Standing Db LockKey Write), ∀ view, (.error e : Except AppError BetView) = .ok view →
        Recalled view h' ∨ .notify (.betSettled input.userId view) ∈ f'.pending := by
    intro e h' f' view heq
    cases heq
  have hpay : ∀ {b game now multiplierBp h f}, (payCashOut input b game now multiplierBp).Along
      database anyCommit h f fun result h' f' => ∀ view, result = .ok view →
        Recalled view h' ∨ .notify (.betSettled input.userId view) ∈ f'.pending := by
    intro b game now multiplierBp h f
    refine Along.after (fun _ _ => trivial) (fun _ h f => ?_) herror
    refine Along.after (fun _ _ => trivial) (fun _ h f => ?_) herror
    refine Along.after (fun _ _ => trivial) (fun _ h f => ?_) herror
    refine Along.after (fun _ _ => trivial) (fun found h f => ?_) herror
    cases found with
    | none => exact herror _ _ _
    | some updated =>
      refine Along.after (fun _ _ => trivial) (fun _ h f => ?_) herror
      refine Along.after (fun _ _ => trivial) (fun _ h f => ?_) herror
      refine Along.after (fun _ _ => trivial) (fun _ h f => ?_) herror
      refine Along.after (fun _ _ => trivial) (fun _ h f => ?_) herror
      refine Along.after (fun _ _ => trivial) (fun _ h f => ?_) herror
      refine Along.after (fun _ _ => trivial) (fun _ h f => ?_) herror
      refine Along.bind (along_put (Along.next_ok fun view heq => ?_))
      cases heq
      exact .inr (List.mem_append_right _ List.mem_cons_self)
  have hactive : ∀ {b h f}, (cashOutActive input b).Along database anyCommit h f
      fun result h' f' => ∀ view, result = .ok view →
        Recalled view h' ∨ .notify (.betSettled input.userId view) ∈ f'.pending := by
    intro b h f
    refine Along.after (fun _ _ => trivial) (fun found h f => ?_) herror
    cases found with
    | none => exact herror _ _ _
    | some round =>
      dsimp only
      split
      · split
        · refine Along.bind_read fun x => ?_
          split
          · exact herror _ _ _
          · exact hpay
        · exact herror _ _ _
      · exact herror _ _ _
  refine Along.transaction (Along.mono (Q := fun result h' f' => ∀ view, result = .ok view →
    Recalled view h' ∨ Write.notify (.betSettled input.userId view) ∈ f'.pending)
    (fun result h f hend => ?_)
    (Along.bind (along_selectForLock (fun s₁ => Along.next_ok (herror _ _ _)) fun s₁ s₂ k => ?_)))
  · cases result with
    | error e =>
      intro view heq
      cases heq
    | ok view =>
      refine ⟨trivial, fun view' heq => ?_, fun e view' heq => by cases heq⟩
      cases heq
      rcases hend view rfl with ⟨s, b, hs, hb, hview⟩ | htold
      · exact .inl ⟨s, b, List.mem_append_left _ hs, hb, hview⟩
      · exact .inr ⟨f.pending, by simp, htold⟩
  · rw [view_nil rfl]
    refine Along.next_ok ?_
    cases hrow : (s₂.bet input.betId).filter fun b => b.userId == input.userId with
    | none => exact herror _ _ _
    | some bet =>
      obtain ⟨hfound, -⟩ := Option.filter_eq_some_iff.1 hrow
      dsimp only
      cases bet.status with
      | ACTIVE => exact hactive
      | WON =>
        intro view heq
        cases heq
        exact .inl ⟨s₂, bet, by simp, lookup_mem hfound, rfl⟩
      | LOST => exact herror _ _ _
      | VOIDED => exact herror _ _ _

end

/-! ## The row that a view shows -/

/-- The row of a bet while it had a status: it is changed once, when the bet is closed. -/
def Bet.asOf (b : Bet) (status : BetStatus) : Bet := if status = .ACTIVE then b.core else b

/-- A view shows the row of its bet as of its status, with the game of the round or the default. -/
def Shows (first : Bool) (view : BetView) (s : Db) : Prop :=
  ∃ b r, s.bet view.id = some b ∧ s.round b.roundId = some r ∧
    view = toBetView (b.asOf view.status) (if first then r.game else .CRASH)

section
variable {config : Config} {crypto : Crypto} {s s' : Db} {first : Bool} {view : BetView}

/-- An active bet has no payout and no multiplier. -/
theorem toBetView_core (h : Consistent config s) (hs : Constrained s) {b : Bet} (hb : b ∈ s.bets)
    (hactive : b.status = .ACTIVE) (game : GameKind) :
    toBetView b game = toBetView b.core game := by
  have hpayout : b.payoutMinor = none := (h.fits b hb).active hactive
  have hmultiplier : b.settledMultiplierBp = none := by
    have hall := firstViolated_none (hs.bets b.id b (lookup_of_mem h.keyed.bets hb))
    simp only [List.forall_mem_cons] at hall
    simpa [hactive] using hall.1
  unfold toBetView Bet.core
  rw [hpayout, hmultiplier, hactive]

/-- A view of a row, when the row is read. -/
theorem Shows.of_row (h : Consistent config s) (hs : Constrained s) {b : Bet} {r : Round}
    (hb : b ∈ s.bets) (hr : s.round b.roundId = some r)
    (hview : view = toBetView b (if first then r.game else .CRASH)) : Shows first view s := by
  have hid : view.id = b.id := by rw [hview]; rfl
  have hstatus : view.status = b.status := by rw [hview]; rfl
  refine ⟨b, r, ?_, hr, ?_⟩
  · rw [hid]
    exact lookup_of_mem h.keyed.bets hb
  · unfold Bet.asOf
    split
    case isTrue hactive =>
      rw [hstatus] at hactive
      rw [← toBetView_core h hs hb hactive]
      exact hview
    case isFalse => exact hview

/-- The game of a round is fixed. -/
theorem game_of_core {r r' : Round} (h : r'.core = r.core) : r'.game = r.game := by
  have hgame := congrArg Round.game h
  exact hgame

/-- The round of a bet is fixed. -/
theorem roundId_of_core {b b' : Bet} (h : b'.core = b.core) : b'.roundId = b.roundId := by
  have hroundId := congrArg Bet.roundId h
  exact hroundId

/-- A view goes on showing its row. -/
theorem Shows.later (h : Shows first view s) (hh : History s s') : Shows first view s' := by
  obtain ⟨b, r, hb, hr, hview⟩ := h
  obtain ⟨b', hb', hcore⟩ := hh.bet hb
  obtain ⟨r', hr', hround⟩ := hh.round hr
  have hgame : r'.game = r.game := game_of_core hround
  have hroundId : b'.roundId = b.roundId := roundId_of_core hcore
  refine ⟨b', r', hb', hroundId ▸ hr', ?_⟩
  rw [hgame]
  by_cases hactive : view.status = .ACTIVE
  · unfold Bet.asOf at hview ⊢
    rw [if_pos hactive] at hview ⊢
    rw [hcore]
    exact hview
  · -- the bet was closed already, so its row is as it was
    have hrow : view = toBetView b (if first then r.game else .CRASH) := by
      unfold Bet.asOf at hview
      rwa [if_neg hactive] at hview
    have hclosed : b.status ≠ .ACTIVE := by
      rw [hrow] at hactive
      exact hactive
    obtain rfl : b' = b := Option.some.inj (hb'.symm.trans (hh.settled hb hclosed))
    unfold Bet.asOf
    rw [if_neg hactive]
    exact hrow

/-- The default game needs no round to be known. -/
theorem Shows.of_default (h : Consistent config s) (hs : Constrained s) {b : Bet}
    (hb : b ∈ s.bets) (hview : view = toBetView b) : Shows false view s := by
  obtain ⟨r, hr, -⟩ := (h.fits b hb).round
  exact .of_row h hs hb hr hview

variable {events : List (Event Inputs Call)} {i : ℕ}

/-- A list of events leads to a state that is reached. -/
theorem reaches_runOf : Reaches config crypto (runOf config crypto events) :=
  World.Run.attempt (fun _ _ => trivial) (.refl _) events

/-- A moment of a session, placed in the run. -/
theorem moment_reached {m : Moment Db Write Inputs} (h : m ∈ momentsOf config crypto events i) :
    ∃ c w₁ w₂, Reaches config crypto w₁ ∧
      TakesIn database (program config crypto) i c m w₁ w₂ ∧ Reaches config crypto w₂ ∧
      History w₁.db (runOf config crypto events).db ∧
      History w₂.db (runOf config crypto events).db := by
  obtain ⟨c, w₁, w₂, hw₁, htakes, hrest⟩ := World.mem_moments h
  obtain ⟨x, -, -, -, -, hstep⟩ := id htakes
  have hnext : World.Run database (program config crypto) (fun _ _ => True) w₁ w₂ :=
    .tail (.refl _) trivial hstep
  have hw₂ : Reaches config crypto w₂ := World.Run.trans hw₁ hnext
  exact ⟨c, w₁, w₂, hw₁, htakes, hw₂, reachable_history hw₁ (hnext.trans hrest),
    reachable_history hw₂ hrest⟩

/-- A bet that was found in the table is still there. -/
theorem Recalled.shows (h : Recalled view (momentsOf config crypto events i)) :
    Shows false view (runOf config crypto events).db := by
  obtain ⟨s, b, hs, hb, hview⟩ := h
  obtain ⟨c, w₁, w₂, hw₁, htakes, -, hhistory, -⟩ := moment_reached hs
  rw [← htakes.saw_db] at hb
  exact (Shows.of_default (reachable_consistent hw₁) (reachable_constrained hw₁) hb hview).later
    hhistory

/-- What is committed at a moment of a session. -/
theorem wrote_reached {rows : List Write} (h : .wrote rows ∈ momentsOf config crypto events i) :
    ∃ s w, Reaches config crypto w ∧ w.db = database.applyAll s rows ∧
      History w.db (runOf config crypto events).db := by
  obtain ⟨c, w₁, w₂, hw₁, htakes, hw₂, -, hhistory⟩ := moment_reached h
  exact ⟨w₁.db, w₂, hw₂, ((reachable_sound hw₁).wrote (books_regular config) htakes fun x =>
    admits_all config _ _).2, hhistory⟩

/-- A bet that was committed is still there. -/
theorem PlacedAs.shows {rows : List Write} (hrows : .wrote rows ∈ momentsOf config crypto events i)
    (h : PlacedAs view (momentsOf config crypto events i) rows) :
    Shows true view (runOf config crypto events).db := by
  obtain ⟨b, r, s, honly, hs, hr, hview⟩ := h
  obtain ⟨s₁, w, hw, hdb, hhistory⟩ := wrote_reached hrows
  have hb : b ∈ w.db.bets := by
    have hbets := applyAll_bets s₁ rows
    rw [honly] at hbets
    rw [hdb, hbets]
    exact List.mem_append_right _ List.mem_cons_self
  obtain ⟨r₁, hr₁, -⟩ := ((reachable_consistent hw).fits b hb).round
  -- the round has the same game when the bet is placed and when it is committed
  have hgame : r.game = r₁.game := by
    obtain ⟨c, w₂, w₃, -, htakes, -, hhistory₂, -⟩ := moment_reached hs
    rw [← htakes.saw_db] at hr
    obtain ⟨r', hr', hcore⟩ := hhistory₂.round hr
    obtain ⟨r₁', hr₁', hcore₁⟩ := hhistory.round hr₁
    obtain rfl : r' = r₁' := Option.some.inj (hr'.symm.trans hr₁')
    exact (game_of_core hcore).symm.trans (game_of_core hcore₁)
  refine Shows.later (.of_row (reachable_consistent hw) (reachable_constrained hw) hb hr₁ ?_)
    hhistory
  rw [if_pos rfl, ← hgame]
  exact hview

/-- Where the answer of a session comes from. -/
def AnswersFrom (c : Call) (result : Except AppError Reply) (h : List (Moment Db Write Inputs))
    (_ : Standing Db LockKey Write) : Prop :=
  ∀ view, result = .ok (.bet view) →
    (∀ input, c = .placeBet input → (h.any placesBet = false ∧ Recalled view h) ∨
      (h.any placesBet = true ∧ ∃ rows, .wrote rows ∈ h ∧ PlacedAs view h rows)) ∧
    (∀ input, c = .cashOut input → Recalled view h ∨
      ∃ rows, .wrote rows ∈ h ∧ .notify (.betSettled input.userId view) ∈ rows)

/-- Every call answers from what it has seen and written. -/
theorem call_answers (c : Call) :
    (program config crypto c).Along database anyCommit [] {} (AnswersFrom c) := by
  have hother : (∀ input, c ≠ .placeBet input) → (∀ input, c ≠ .cashOut input) →
      (program config crypto c).Along database anyCommit [] {} (AnswersFrom c) := by
    intro hplace hcash
    exact Along.of_forall (fun _ _ => trivial) fun r h f view _ =>
      ⟨fun input hc => absurd hc (hplace input), fun input hc => absurd hc (hcash input)⟩
  cases c with
  | placeBet input =>
    refine Along.map (placeBet_along.mono fun r h f hr view heq => ?_)
    cases r with
    | error e => cases heq
    | ok view' =>
      cases heq
      exact ⟨fun _ _ => hr view rfl, fun _ hc => by cases hc⟩
  | cashOut input =>
    refine Along.map (cashOut_along_answer.mono fun r h f hr view heq => ?_)
    cases r with
    | error e => cases heq
    | ok view' =>
      cases heq
      refine ⟨fun _ hc => (by cases hc), fun input' hc => ?_⟩
      cases hc
      exact hr view rfl
  | _ => exact hother (by simp) (by simp)

/-- What a session has answered comes from its own moments. -/
theorem session_answers {t : Client} (ht : (runOf config crypto events).sessions[i]? = some t)
    (hanswer : t.answer = some (.ok (.bet view))) :
    (∀ input, t.call = .placeBet input →
      (((momentsOf config crypto events i).any placesBet = false ∧
        Recalled view (momentsOf config crypto events i)) ∨
      ((momentsOf config crypto events i).any placesBet = true ∧
        ∃ rows, .wrote rows ∈ momentsOf config crypto events i ∧
          PlacedAs view (momentsOf config crypto events i) rows))) ∧
    (∀ input, t.call = .cashOut input → Recalled view (momentsOf config crypto events i) ∨
      ∃ rows, .wrote rows ∈ momentsOf config crypto events i ∧
        .notify (.betSettled input.userId view) ∈ rows) := by
  have halong := World.along_moments (fun c => call_answers c)
    (fun c h f view heq => by cases heq) rfl events ht
  rw [Session.answer_eq_some.1 hanswer] at halong
  exact halong view rfl

/-- A bet that was told of is in the table. -/
theorem shows_told {w : System} (hw : Reaches config crypto w) {userId : Uuid}
    (h : .betSettled userId view ∈ w.db.delivered) : Shows false view w.db := by
  obtain ⟨b, hb, -, hview⟩ := reachable_told hw userId view h
  exact .of_default (reachable_consistent hw) (reachable_constrained hw) (lookup_mem hb) hview

/-- Every view shows its row. -/
theorem Produced.shows (h : Produced config crypto events first view) :
    Shows first view (runOf config crypto events).db := by
  have hlisted : ∀ {before after : List (Event Inputs Call)} {b : Bet}, before ++ after = events →
      b ∈ (runOf config crypto before).db.bets → view = toBetView b →
      Shows false view (runOf config crypto events).db := by
    intro before after b hevents hb hview
    have hw : Reaches config crypto (runOf config crypto before) := reaches_runOf
    refine (Shows.of_default (reachable_consistent hw) (reachable_constrained hw) hb hview).later ?_
    refine reachable_history hw ?_
    rw [← hevents]
    show World.Run _ _ _ _ (World.attempt _ _ _ _)
    rw [World.attempt_append]
    exact World.Run.attempt (fun _ _ => trivial) (.refl _) after
  cases h with
  | placed i t input view ht hcall hanswer =>
    rcases (session_answers ht hanswer).1 input hcall with
      ⟨hfirst, hrecalled⟩ | ⟨hfirst, rows, hrows, hplaced⟩
    · rw [hfirst]
      exact hrecalled.shows
    · rw [hfirst]
      exact hplaced.shows hrows
  | cashedOut i t input view ht hcall hanswer =>
    rcases (session_answers ht hanswer).2 input hcall with hrecalled | ⟨rows, hrows, htold⟩
    · exact hrecalled.shows
    · obtain ⟨s, w, hw, hdb, hhistory⟩ := wrote_reached hrows
      have hdelivered : .betSettled input.userId view ∈ w.db.delivered := by
        rw [hdb]
        exact (applyAll_delivered s rows).2 (.inr htold)
      exact (shows_told hw hdelivered).later hhistory
  | published userId view hmem => exact shows_told reaches_runOf hmem
  | betsForRound before after order userId roundId view hevents hmem =>
    obtain ⟨b, hb, hview⟩ := List.mem_map.1 hmem
    have hb := (order.perm _).mem_iff.1 ((List.perm_insertionSort _ _).mem_iff.1 hb)
    exact hlisted hevents (List.mem_filter.1 hb).1 hview.symm
  | bets before after order userId limit view hevents hmem =>
    obtain ⟨b, hb, hview⟩ := List.mem_map.1 hmem
    have hb := (order.perm _).mem_iff.1
      ((List.perm_insertionSort _ _).mem_iff.1 (List.mem_of_mem_take hb))
    exact hlisted hevents (List.mem_filter.1 hb).1 hview.symm

/-- The same game is shown of a crash bet, and by two views that take it from the round or both do
not. -/
theorem game_eq_iff {game : GameKind} {first first' : Bool} :
    (if first' then game else .CRASH) = (if first then game else .CRASH) ↔
      game = .CRASH ∨ first' = first := by
  cases game <;> cases first <;> cases first' <;> simp

/-- A view names the game of its round, and two views of a bet agree while its row is unchanged,
when the round is one of crash, or when both, or neither, are the answer of the request that placed
the bet; and not otherwise. -/
theorem produced_views {first' : Bool} {view' : BetView}
    (h : Produced config crypto events first view)
    (h' : Produced config crypto events first' view') :
    ∃ b r, (runOf config crypto events).db.bet view.id = some b ∧
      (runOf config crypto events).db.round b.roundId = some r ∧
      view = toBetView (b.asOf view.status) (if first then r.game else .CRASH) ∧
      (view.game = r.game ↔ r.game = .CRASH ∨ first = true) ∧
      (view'.id = view.id → view'.status = view.status →
        (view' = view ↔ r.game = .CRASH ∨ first' = first)) := by
  obtain ⟨b, r, hb, hr, hview⟩ := h.shows
  have hgame : view.game = if first then r.game else .CRASH := by rw [hview]; rfl
  refine ⟨b, r, hb, hr, hview, ?_, fun hid hstatus => ?_⟩
  · rw [hgame]
    cases first with
    | true => simp
    | false => simp [eq_comm]
  · obtain ⟨b', r', hb', hr', hview'⟩ := h'.shows
    rw [hid] at hb'
    obtain rfl : b' = b := Option.some.inj (hb'.symm.trans hb)
    obtain rfl : r' = r := Option.some.inj (hr'.symm.trans hr)
    rw [hstatus] at hview'
    rw [← game_eq_iff]
    refine ⟨fun heq => ?_, fun heq => ?_⟩
    · rw [← hgame, ← heq, hview']
      rfl
    · rw [hview', heq]
      exact hview.symm

end

/-- The crash bet of the small game, as it was answered and as it is listed. -/
theorem produced_views_smallGame :
    ∃ view view', Produced smallConfig plainCrypto smallGame true view ∧
      view' ∈ getUserBets ⟨id, fun rows => List.Perm.refl rows⟩ (uuidAt 2) (executed smallGame).db ∧
      view.status = .ACTIVE ∧ view' = view := by
  have hcall : (executed smallGame).sessions[5]?.map Session.call =
      some (.placeBet ⟨uuidAt 2, uuidAt 204, 300, "c", none⟩) := by decide +kernel
  have hanswer : ((executed smallGame).sessions[5]?.bind answeredBet).map
      (fun v => (v.id, v.status, v.game)) = some (uuidAt 506, .ACTIVE, .CRASH) := by decide +kernel
  have hfirst : (momentsOf smallConfig plainCrypto smallGame 5).any placesBet = true := by
    decide +kernel
  have hlisted : ((getUserBets ⟨id, fun rows => List.Perm.refl rows⟩ (uuidAt 2)
      (executed smallGame).db).find? fun v => v.status == .ACTIVE).map (fun v => (v.id, v.status)) =
        some (uuidAt 506, .ACTIVE) := by decide +kernel
  obtain ⟨view, hview, hshown⟩ := Option.map_eq_some_iff.1 hanswer
  obtain ⟨view', hview', hshown'⟩ := Option.map_eq_some_iff.1 hlisted
  simp only [Prod.mk.injEq] at hshown hshown'
  have hmem := List.mem_of_find?_eq_some hview'
  have hproduced := produced_answeredBet hcall hview hfirst
  obtain ⟨b, r, -, -, -, hgame, hagree⟩ := produced_views hproduced
    (.bets smallGame [] _ (uuidAt 2) 50 view' (List.append_nil _) hmem)
  refine ⟨view, view', hproduced, hmem, hshown.2.1, ?_⟩
  refine (hagree (hshown'.1.trans hshown.1.symm) (hshown'.2.trans hshown.2.1.symm)).2 (.inl ?_)
  rw [← hgame.2 (.inr rfl)]
  exact hshown.2.2

/-- The small game up to its first bet, 1000 on red, which is then asked for once more. -/
def replayedGame : List (Event Inputs Call) :=
  smallGame.take 184 ++
  .start (.placeBet ⟨uuidAt 2, uuidAt 109, 1000, "a", some ⟨"RED", none⟩⟩) :: turns 4 50 400

/-- The bet is shown with the roulette of its round when it is placed, and with crash when the
request is replayed, though it has not been settled. -/
theorem replayedGame_answers :
    ∃ view view', Produced smallConfig plainCrypto replayedGame true view ∧
      Produced smallConfig plainCrypto replayedGame false view' ∧
      view'.id = view.id ∧ view.status = .ACTIVE ∧ view'.status = .ACTIVE ∧
      view.game = .ROULETTE ∧ view'.game = .CRASH := by
  have hcalls : (executed replayedGame).sessions[3]?.map Session.call = some (.placeBet
        ⟨uuidAt 2, uuidAt 109, 1000, "a", some ⟨"RED", none⟩⟩) ∧
      (executed replayedGame).sessions[4]?.map Session.call = some (.placeBet
        ⟨uuidAt 2, uuidAt 109, 1000, "a", some ⟨"RED", none⟩⟩) := by
    decide +kernel
  have hviews : ((executed replayedGame).sessions[3]?.bind answeredBet).map
        (fun v => (v.id, v.status, v.game)) = some (uuidAt 306, .ACTIVE, .ROULETTE) ∧
      ((executed replayedGame).sessions[4]?.bind answeredBet).map
        (fun v => (v.id, v.status, v.game)) = some (uuidAt 306, .ACTIVE, .CRASH) := by
    decide +kernel
  have hfirst : (momentsOf smallConfig plainCrypto replayedGame 3).any placesBet = true ∧
      (momentsOf smallConfig plainCrypto replayedGame 4).any placesBet = false := by
    decide +kernel
  obtain ⟨view, hview, hshown⟩ := Option.map_eq_some_iff.1 hviews.1
  obtain ⟨view', hview', hshown'⟩ := Option.map_eq_some_iff.1 hviews.2
  simp only [Prod.mk.injEq] at hshown hshown'
  exact ⟨view, view', produced_answeredBet hcalls.1 hview hfirst.1,
    produced_answeredBet hcalls.2 hview' hfirst.2, hshown'.1.trans hshown.1.symm, hshown.2.1,
    hshown'.2.1, hshown.2.2, hshown'.2.2⟩

end Tessera
