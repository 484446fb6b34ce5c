import Tessera.Live.Broadcast

/-!
# What a client that reconnects is told

A client that connects is sent one round, the live one with the largest nonce.  As long as no
dispatch is overtaken, that is all it needs while at most one round is live; once the others have
been told of two live rounds, one of them is missing.

* `Gateway.joined` — what a client knows that is there from the start;
* `Gateway.Resynced` — a new client is sent every round that the first one believes to be live;
* `reconnect_in_order` — when it is; `reconnect_loses_round` — two games at once.
-/

namespace Tessera

open Relational

/-- Nothing is on its way yet, and a client has connected: it has been sent the current state. -/
def Gateway.joined (s : Db) (now : Time) : Gateway where
  db := s
  emitted := sendCurrentState now s

/-- A client that has been connected from the start believes that a round is live: so says the
last state of it that it was sent. -/
def Gateway.BelievedLive (g : Gateway) (roundId : Uuid) : Prop :=
  ∃ status, (g.shown roundId).getLast? = some status ∧ status.isLive = true

/-- A client that connects now is sent the state of every round that is believed to be live. -/
def Gateway.Resynced (g : Gateway) (now : Time) : Prop :=
  ∀ roundId, g.BelievedLive roundId →
    ∃ r, g.db.round roundId = some r ∧ statePayload now (toRoundView r) ∈ sendCurrentState now g.db

/-- The live rounds of both games. -/
def Db.liveRounds (s : Db) : List Round := s.rounds.filter fun r => r.status.isLive

/-! ## What is sent to a client that connects -/

section
variable {s : Db} {now : Time}

/-- The current state is that of a live round. -/
theorem mem_sendCurrentState {p : RoundStatePayload} (h : p ∈ sendCurrentState now s) :
    ∃ r ∈ s.liveRounds, p = statePayload now (toRoundView r) := by
  unfold sendCurrentState getCurrentRound at h
  cases hrow : greatest Round.nonce (s.rounds.filter fun r => r.status.isLive) with
  | none =>
    rw [hrow] at h
    exact absurd h List.not_mem_nil
  | some r =>
    rw [hrow, List.mem_singleton] at h
    exact ⟨r, (greatest_mem hrow).1, h⟩

theorem sendCurrentState_singleton {r : Round} (h : s.liveRounds = [r]) (now : Time) :
    sendCurrentState now s = [statePayload now (toRoundView r)] := by
  unfold sendCurrentState getCurrentRound
  rw [show (s.rounds.filter fun r => r.status.isLive) = [r] from h]
  rfl

/-- However many rounds are live, one of them is sent at the most. -/
theorem sendCurrentState_length (s : Db) (now : Time) : (sendCurrentState now s).length ≤ 1 := by
  unfold sendCurrentState
  split <;> simp

/-- The client that is there from the start has been told the truth, of one round at the most. -/
theorem Orderly.joined (hkeyed : (s.rounds.map Round.id).Nodup) (now : Time) (roundId : Uuid) :
    Orderly (Gateway.joined s now) roundId := by
  have hwaiting : (Gateway.joined s now).waiting roundId = [] := rfl
  have hone : ((Gateway.joined s now).shown roundId).length ≤ 1 := by
    unfold Gateway.shown
    rw [List.length_map]
    exact (List.length_filter_le _ _).trans (sendCurrentState_length s now)
  have htrue : ∀ status ∈ (Gateway.joined s now).shown roundId,
      ∃ r, s.round roundId = some r ∧ r.status = status := by
    intro status hstatus
    obtain ⟨p, hp, rfl⟩ := List.mem_map.1 hstatus
    obtain ⟨hp, hid⟩ := List.mem_filter.1 hp
    obtain ⟨r, hr, rfl⟩ := mem_sendCurrentState hp
    obtain rfl : r.id = roundId := beq_iff_eq.1 hid
    exact ⟨r, lookup_of_mem hkeyed (List.mem_of_mem_filter hr), rfl⟩
  refine ⟨fun _ ha => absurd ha List.not_mem_nil, ?_, fun status hstatus => ?_,
    fun status hstatus => ?_, fun hreceived => absurd hreceived List.not_mem_nil, Nat.zero_le _⟩
  · rw [hwaiting, List.append_nil]
    rcases hshown : (Gateway.joined s now).shown roundId with _ | ⟨a, _ | ⟨b, rest⟩⟩
    · exact List.Pairwise.nil
    · exact List.pairwise_singleton _ _
    · simp [hshown] at hone
  · rw [hwaiting, List.append_nil] at hstatus
    obtain ⟨r, hr, rfl⟩ := htrue status hstatus
    exact ⟨r, hr, le_rfl⟩
  · rw [hwaiting, List.append_nil] at hstatus
    exact .inl (htrue status (List.mem_of_getLast? hstatus))

end

/-! ## Clients that connect later -/

section
variable {g : Gateway}

/-- Whatever the clients believe to be live is live once nothing is on its way. -/
theorem Gateway.BelievedLive.live {roundId : Uuid} (h : g.BelievedLive roundId)
    (horderly : Orderly g roundId) (hquiet : g.Quiet) :
    ∃ r, g.db.round roundId = some r ∧ r ∈ g.db.liveRounds := by
  obtain ⟨status, hstatus, hlive⟩ := h
  obtain ⟨r, hr, rfl⟩ := horderly.latest hquiet hstatus
  exact ⟨r, hr, List.mem_filter.2 ⟨lookup_mem hr, hlive⟩⟩

/-- A live round that the clients have been told of is believed to be live. -/
theorem believedLive_of_shown {r : Round} (horderly : Orderly g r.id) (hquiet : g.Quiet)
    (hkeyed : (g.db.rounds.map Round.id).Nodup) (hr : r ∈ g.db.liveRounds)
    (hshown : g.shown r.id ≠ []) : g.BelievedLive r.id := by
  obtain ⟨hmem, hlive⟩ := List.mem_filter.1 hr
  obtain ⟨status, hstatus⟩ := Option.isSome_iff_exists.1 (List.getLast?_isSome.2 hshown)
  obtain ⟨r', hr', rfl⟩ := horderly.latest hquiet hstatus
  obtain rfl : r = r' := Option.some.inj ((lookup_of_mem hkeyed hmem).symm.trans hr')
  exact ⟨r.status, hstatus, hlive⟩

/-- With one live round at the most, a client that connects is sent all that matters. -/
theorem resynced_of_few (horderly : ∀ roundId, Orderly g roundId) (hquiet : g.Quiet) (now : Time)
    (hfew : g.db.liveRounds.length ≤ 1) : g.Resynced now := by
  intro roundId hbelieved
  obtain ⟨r, hr, hlive⟩ := hbelieved.live (horderly roundId) hquiet
  obtain ⟨r', hone⟩ : ∃ r', g.db.liveRounds = [r'] :=
    List.length_eq_one_iff.1 (le_antisymm hfew (List.length_pos_of_mem hlive))
  rw [hone, List.mem_singleton] at hlive
  subst hlive
  exact ⟨r, hr, by rw [sendCurrentState_singleton hone]; exact List.mem_cons_self⟩

/-- With two live rounds that the clients have been told of, a client that connects misses one. -/
theorem few_of_resynced (horderly : ∀ roundId, Orderly g roundId) (hquiet : g.Quiet) {now : Time}
    (hkeyed : (g.db.rounds.map Round.id).Nodup)
    (hshown : ∀ r ∈ g.db.liveRounds, g.shown r.id ≠ []) (hsync : g.Resynced now) :
    g.db.liveRounds.length ≤ 1 := by
  by_contra hmany
  -- two live rounds, of which the client is sent one
  have hsent : ∀ r ∈ g.db.liveRounds,
      statePayload now (toRoundView r) ∈ sendCurrentState now g.db := by
    intro r hr
    have hfind : g.db.round r.id = some r := lookup_of_mem hkeyed (List.mem_of_mem_filter hr)
    obtain ⟨r', hr', hsend⟩ :=
      hsync r.id (believedLive_of_shown (horderly r.id) hquiet hkeyed hr (hshown r hr))
    obtain rfl : r = r' := Option.some.inj (hfind.symm.trans hr')
    exact hsend
  have hids : (g.db.liveRounds.map Round.id).Nodup := hkeyed.sublist (List.filter_sublist.map _)
  have hlength := sendCurrentState_length g.db now
  rcases hlive : g.db.liveRounds with _ | ⟨r, _ | ⟨r', rest⟩⟩
  · simp [hlive] at hmany
  · simp [hlive] at hmany
  · have h := hsent r (by simp [hlive])
    have h' := hsent r' (by simp [hlive])
    obtain ⟨p, hone⟩ : ∃ p, sendCurrentState now g.db = [p] :=
      List.length_eq_one_iff.1 (le_antisymm hlength (List.length_pos_of_mem h))
    rw [hone, List.mem_singleton] at h h'
    rw [hlive] at hids
    have hid : r'.id = r.id :=
      congrArg (fun p : RoundStatePayload => p.round.id) (h'.trans h.symm)
    simp [hid] at hids

/-- Along every run in which no dispatch is overtaken, at every moment at which nothing is on its
way: while at most one round is live, a client that connects is sent every round that the client
that was there from the start believes to be live; and once that client has been told of all live
rounds, then only while there is at most one. -/
theorem reconnect_in_order {s : Db} (hkeyed : (s.rounds.map Round.id).Nodup) {start : Time}
    (hrun : Relation.ReflTransGen (Gateway.Step Gateway.InOrder) (Gateway.joined s start) g)
    (hquiet : g.Quiet) (now : Time) :
    (g.db.liveRounds.length ≤ 1 → g.Resynced now) ∧
      ((g.db.rounds.map Round.id).Nodup → (∀ r ∈ g.db.liveRounds, g.shown r.id ≠ []) →
        g.Resynced now → g.db.liveRounds.length ≤ 1) := by
  have horderly : ∀ roundId, Orderly g roundId :=
    fun roundId => (Orderly.joined hkeyed start roundId).run hrun
  exact ⟨resynced_of_few horderly hquiet now, few_of_resynced horderly hquiet⟩

end

/-! ## Two games at once -/

/-- A roulette round in some status. -/
def liveWheel (status : RoundStatus) : Round :=
  { liveRound status with
    id := 8, nonce := 2, game := .ROULETTE, crashPointBp := none, winningPocket := some 5 }

/-- The crash round, open and announced. -/
def crashOpen : Gateway where
  db := { rounds := [liveRound .OPEN] }
  emitted := [statePayload 0 (toRoundView (liveRound .OPEN))]
  received := [9]

/-- A round of each game, both open and both announced. -/
def bothOpen : Gateway where
  db := { rounds := [liveRound .OPEN, liveWheel .OPEN] }
  emitted := [statePayload 0 (toRoundView (liveRound .OPEN)),
    statePayload 0 (toRoundView (liveWheel .OPEN))]
  received := [9, 8]

/-- A round is inserted, and nothing is said of it. -/
theorem announces_append {s s' : Db} {r : Round} (hs : s'.rounds = s.rounds ++ [r]) :
    Announces s s' [] := by
  have hfind : ∀ {id q}, s.round id = some q → s'.round id = some q := by
    intro id q hq
    unfold Db.round at hq ⊢
    rw [hs, lookup_append, hq, Option.some_or]
  refine ⟨fun id q hq => ⟨q, hfind hq, .refl _⟩, fun id q q' hq hq' hne => ?_⟩
  rw [hfind hq] at hq'
  exact absurd (congrArg Round.status (Option.some.inj hq'.symm)) hne

/-- A notification on its own. -/
theorem announces_notify (s : Db) (roundIds : List Uuid) : Announces s s roundIds := by
  refine ⟨fun id q hq => ⟨q, hq, .refl _⟩, fun id q q' hq hq' hne => ?_⟩
  rw [hq] at hq'
  exact absurd (congrArg Round.status (Option.some.inj hq'.symm)) hne

/-- The opening of a round, from the insertion to the broadcast: the insertion commits, the
notification commits, it is received, and its read is answered and broadcast. -/
theorem run_opening {g₀ g g' : Gateway} {s : Db} {r : Round}
    (h : Relation.ReflTransGen (Gateway.Step Gateway.InOrder) g₀ g)
    (hquiet : g.Quiet) (hs : s.rounds = g.db.rounds ++ [r]) (hthere : s.round r.id = some r)
    (hnext : g' = { g with
      db := s
      emitted := g.emitted ++ [statePayload 0 (toRoundView r)]
      received := g.received ++ [r.id] }) :
    Relation.ReflTransGen (Gateway.Step Gateway.InOrder) g₀ g' := by
  obtain ⟨db, queue, reads, answers, emitted, received⟩ := g
  obtain ⟨rfl, rfl, rfl⟩ : queue = [] ∧ reads = [] ∧ answers = [] := hquiet
  have hread : getRound s r.id = .ok (toRoundView r) := by
    unfold getRound
    rw [hthere]
  have hreceived : (if (s.round r.id).isSome = true then [r.id] else []) = [r.id] := by
    rw [hthere]
    rfl
  have hlisten := run_of_steps (e := .receive) (run_of_steps (e := .commit s [r.id])
    (run_of_steps (e := .commit s []) h ⟨announces_append hs, trivial⟩ rfl)
    ⟨announces_notify s [r.id], trivial⟩ rfl) ⟨trivial, trivial⟩ rfl
  refine run_of_steps (e := .emit 0 0) (run_of_steps (e := .answer 0) hlisten ⟨trivial, trivial⟩ rfl)
    ⟨trivial, fun _ _ b hb => absurd hb (by simp)⟩ ?_
  subst hnext
  simp [Gateway.step, Answer.payloads, hread, hreceived]

theorem crashOpen_run :
    Relation.ReflTransGen (Gateway.Step Gateway.InOrder) (Gateway.joined {} 0) crashOpen :=
  run_opening .refl ⟨rfl, rfl, rfl⟩ (r := liveRound .OPEN) rfl rfl rfl

theorem bothOpen_run :
    Relation.ReflTransGen (Gateway.Step Gateway.InOrder) (Gateway.joined {} 0) bothOpen :=
  run_opening crashOpen_run ⟨rfl, rfl, rfl⟩ (r := liveWheel .OPEN) rfl rfl rfl

/-- With a round of each game open, a client that connects is sent one of them. -/
theorem reconnect_loses_round :
    Relation.ReflTransGen (Gateway.Step Gateway.InOrder) (Gateway.joined {} 0) bothOpen ∧
      bothOpen.Quiet ∧ bothOpen.BelievedLive 9 ∧
      (sendCurrentState 0 bothOpen.db).map (fun p => p.round.id) = [8] ∧ ¬ bothOpen.Resynced 0 := by
  have hlive : bothOpen.BelievedLive 9 := ⟨.OPEN, by decide, rfl⟩
  have hsent : (sendCurrentState 0 bothOpen.db).map (fun p => p.round.id) = [8] := by decide
  refine ⟨bothOpen_run, ⟨rfl, rfl, rfl⟩, hlive, hsent, fun h => ?_⟩
  obtain ⟨r, hr, hmem⟩ := h 9 hlive
  have hid : r.id = 9 := lookup_key hr
  have hmem' := List.mem_map_of_mem (f := fun p : RoundStatePayload => p.round.id) hmem
  rw [hsent, List.mem_singleton] at hmem'
  exact absurd (hid.symm.trans hmem') (by decide)

/-- With the crash round open a client that connects is sent it; with both open, one is missing. -/
theorem reconnect_in_order_bothOpen :
    crashOpen.BelievedLive 9 ∧ crashOpen.Resynced 0 ∧ ¬ bothOpen.Resynced 0 := by
  have hcrash := reconnect_in_order (by decide) crashOpen_run ⟨rfl, rfl, rfl⟩ 0
  have hboth := reconnect_in_order (by decide) bothOpen_run ⟨rfl, rfl, rfl⟩ 0
  have hshown : ∀ r ∈ bothOpen.db.liveRounds, bothOpen.shown r.id ≠ [] := by decide
  exact ⟨⟨.OPEN, by decide, rfl⟩, hcrash.1 (by decide),
    fun hsync => absurd (hboth.2 (by decide) hshown hsync) (by decide)⟩

end Tessera
