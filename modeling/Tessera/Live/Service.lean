import Tessera.Live.Reconnect
import Tessera.Rounds.Announced

/-!
# The gateway and the system behind it

The gateway is told of what the sessions commit, and reads what they have committed.  Every commit
of the system moves rounds along their lifecycle and tells of each round that it moves, so whatever
holds along the runs of a gateway holds along the runs of the two together.

* `Db.told`, `announces_told` — what the commits of the system tell of the rounds;
* `Live`, `LiveStep` — the two together; `LiveStep.run` — a run of them, as a run of the gateway;
* `live_broadcast`, `live_reconnect` — what the clients see of the system.

Source: `round-event-bus.service.ts` `publish`, `startListening`; `rounds.gateway.ts`.
-/

namespace Tessera

open Relational Transactions

/-! ## What a commit tells -/

/-- The round of a `round.state` event. -/
def RoundDomainEvent.stateOf : RoundDomainEvent → Option Uuid
  | .roundState roundId => some roundId
  | _ => none

/-- The rounds that are told of between two states of the tables, in the order of the notifications. -/
def Db.told (s s' : Db) : List Uuid :=
  (s'.delivered.drop s.delivered.length).filterMap RoundDomainEvent.stateOf

section
variable {s s' : Db}

theorem mem_told_of_event {events : List RoundDomainEvent} {roundId : Uuid}
    (hdelivered : s'.delivered = s.delivered ++ events) (hmem : .roundState roundId ∈ events) :
    roundId ∈ s.told s' := by
  unfold Db.told
  rw [hdelivered, List.drop_left]
  exact List.mem_filterMap.2 ⟨_, hmem, rfl⟩

/-- What a step tells of the rounds names each of them that it has moved. -/
theorem RoundsTold.announced (h : RoundsTold s s') {roundId : Uuid} {r r' : Round}
    (hr : s.round roundId = some r) (hr' : s'.round roundId = some r') (hne : r'.status ≠ r.status) :
    roundId ∈ s.told s' := by
  cases h with
  | told events hdelivered honce =>
    refine mem_told_of_event hdelivered (List.count_pos_iff.1 ?_)
    rw [honce, if_neg]
    · exact Nat.one_pos
    · rw [hr, hr']
      rintro ⟨⟩
      exact hne rfl
  | @opened q hnew _ =>
    -- the rounds that were there are as they were
    have hfound : (s.apply (.insertRound q)).round roundId = some r := lookup_append_of_some hr [q]
    rw [hfound] at hr'
    exact absurd (congrArg Round.status (Option.some.inj hr'.symm)) hne
  | opening _ =>
    have hsame : s.round roundId = some r' := hr'
    rw [hr] at hsame
    exact absurd (congrArg Round.status (Option.some.inj hsame.symm)) hne

end

section
variable {config : Config} {crypto : Crypto}

/-- Every step of the system moves rounds along their lifecycle and tells of those that it moves. -/
theorem announces_told {w w' : System} (h : Reaches config crypto w) {e : Event Inputs Call}
    (he : w.step database (program config crypto) e = some w') :
    Announces w.db w'.db (w.db.told w'.db) where
  moves roundId r hr := by
    have hone : World.Run database (program config crypto) (fun _ _ => True) w w' :=
      .tail (.refl w) trivial he
    obtain ⟨r', hr', hbecomes⟩ := reaches_roundsMove h hone roundId r hr
    exact ⟨r', hr', hbecomes.status⟩
  announced _ _ _ hr hr' hne := (reachable_roundsTold h he).announced hr hr' hne

/-! ## The two together -/

/-- The system and one gateway. -/
structure Live where
  world : System
  gateway : Gateway

/-- What happens to the two: a step of the system, whose notifications reach the gateway and whose
tables it reads from then on, or a step of the gateway on its own. -/
inductive LiveStep (config : Config) (crypto : Crypto) (admits : Gateway → GatewayEvent → Prop) :
    Live → Live → Prop
  | world {w w' : System} {g : Gateway} (e : Event Inputs Call)
      (step : w.step database (program config crypto) e = some w') :
      LiveStep config crypto admits ⟨w, g⟩
        ⟨w', { g with db := w'.db, queue := g.queue ++ w.db.told w'.db }⟩
  | gateway {w : System} {g g' : Gateway} (e : GatewayEvent)
      (internal : ∀ s roundIds, e ≠ .commit s roundIds) (admitted : admits g e)
      (step : g.step e = some g') : LiveStep config crypto admits ⟨w, g⟩ ⟨w, g'⟩

/-- A gateway reads the committed tables of the system behind it. -/
structure Live.Joined (config : Config) (crypto : Crypto) (l : Live) : Prop where
  reached : Reaches config crypto l.world
  reads : l.gateway.db = l.world.db

/-- A step of a gateway on its own changes no table. -/
theorem Gateway.step_db {g g' : Gateway} {e : GatewayEvent}
    (hinternal : ∀ s roundIds, e ≠ .commit s roundIds) (h : g.step e = some g') : g'.db = g.db := by
  cases e with
  | commit s roundIds => exact absurd rfl (hinternal s roundIds)
  | receive =>
    cases hqueue : g.queue with
    | nil =>
      simp only [Gateway.step, hqueue] at h
      cases h
    | cons id rest =>
      simp only [Gateway.step, hqueue] at h
      cases h
      rfl
  | answer k =>
    obtain ⟨id, -, rfl⟩ := Option.map_eq_some_iff.1 h
    rfl
  | emit k now =>
    obtain ⟨a, -, rfl⟩ := Option.map_eq_some_iff.1 h
    rfl

variable {admits : Gateway → GatewayEvent → Prop} {l l' : Live}

/-- One step of the two is one of the gateway. -/
theorem LiveStep.step
    (hcommit : ∀ g s roundIds, Announces g.db s roundIds → admits g (.commit s roundIds))
    (hl : l.Joined config crypto) (h : LiveStep config crypto admits l l') :
    l'.Joined config crypto ∧ Gateway.Step admits l.gateway l'.gateway := by
  obtain ⟨hreached, hreads⟩ := hl
  cases h with
  | @world w w' g e hstep =>
    refine ⟨⟨hreached.tail trivial hstep, rfl⟩, .commit w'.db (w.db.told w'.db), hcommit _ _ _ ?_, rfl⟩
    rw [show g.db = w.db from hreads]
    exact announces_told hreached hstep
  | gateway e hinternal hadmitted hstep =>
    exact ⟨⟨hreached, (Gateway.step_db hinternal hstep).trans hreads⟩, e, hadmitted, hstep⟩

/-- A run of the two is one of the gateway. -/
theorem LiveStep.run
    (hcommit : ∀ g s roundIds, Announces g.db s roundIds → admits g (.commit s roundIds))
    (hl : l.Joined config crypto)
    (h : Relation.ReflTransGen (LiveStep config crypto admits) l l') :
    l'.Joined config crypto ∧
      Relation.ReflTransGen (Gateway.Step admits) l.gateway l'.gateway := by
  induction h with
  | refl => exact ⟨hl, .refl⟩
  | tail _ hstep ih =>
    obtain ⟨hjoined, hrun⟩ := ih
    obtain ⟨hjoined', hone⟩ := hstep.step hcommit hjoined
    exact ⟨hjoined', hrun.tail hone⟩

/-- What the engine commits is admitted in order. -/
theorem inOrder_commit (g : Gateway) (s : Db) (roundIds : List Uuid)
    (h : Announces g.db s roundIds) : g.InOrder (.commit s roundIds) := ⟨h, trivial⟩

/-- Whatever the sessions do: as long as no dispatch is overtaken, a gateway that listens to them
broadcasts the states of every round faithfully. -/
theorem live_broadcast {w : System} (hw : Reaches config crypto w)
    (h : Relation.ReflTransGen (LiveStep config crypto Gateway.InOrder) ⟨w, { db := w.db }⟩ l)
    (roundId : Uuid) : l.gateway.Faithful roundId := by
  obtain ⟨-, hrun⟩ := LiveStep.run inOrder_commit ⟨hw, rfl⟩ h
  exact ((Orderly.start w.db roundId).run hrun).faithful

/-- Whatever the sessions do: as long as no dispatch is overtaken, whenever nothing is on its way
and at most one round is live, a client that connects is sent every round that a client that was
there from the start believes to be live; if two rounds are live of which that one has been told, it
is not. -/
theorem live_reconnect {w : System} (hw : Reaches config crypto w) {start : Time}
    (h : Relation.ReflTransGen (LiveStep config crypto Gateway.InOrder)
      ⟨w, Gateway.joined w.db start⟩ l)
    (hquiet : l.gateway.Quiet) (now : Time) :
    (l.world.db.liveRounds.length ≤ 1 → l.gateway.Resynced now) ∧
      ((∀ r ∈ l.world.db.liveRounds, l.gateway.shown r.id ≠ []) → l.gateway.Resynced now →
        l.world.db.liveRounds.length ≤ 1) := by
  obtain ⟨hjoined, hrun⟩ := LiveStep.run inOrder_commit ⟨hw, rfl⟩ h
  have horderly : ∀ roundId, Orderly l.gateway roundId :=
    fun roundId => (Orderly.joined (reaches_lifecycle hw).ids start roundId).run hrun
  have hkeyed : (l.gateway.db.rounds.map Round.id).Nodup := by
    rw [hjoined.reads]
    exact (reaches_lifecycle hjoined.reached).ids
  rw [← hjoined.reads]
  exact ⟨resynced_of_few horderly hquiet now, few_of_resynced horderly hquiet hkeyed⟩

end

end Tessera
