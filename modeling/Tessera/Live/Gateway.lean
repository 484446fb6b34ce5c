import Tessera.Rounds.Lifecycle
import Tessera.Rounds.Fairness

/-!
# The live gateway

What a client of the gateway is told about the rounds.  A `round.state` event names a round
only; the gateway reads the round from the database and sends it on once it has the answer,
each event on its own.

* `getCurrentRound`, `getRound`, `statePayload` — what is read and what is sent;
* `Gateway`, `Gateway.step` — the events that are on their way, and what can happen next.

Source: `src/src/rounds/rounds.gateway.ts`, `rounds.service.ts`.
-/

namespace Tessera

/-! ## What is read and what is sent -/

/-- Source: `RoundsService.getCurrentRound`. -/
def getCurrentRound (s : Db) : Except AppError RoundView :=
  match greatest Round.nonce (s.rounds.filter fun r => r.status.isLive) with
  | none => .error .noActiveRound
  | some row => .ok (toRoundView row)

/-- Source: `RoundsService.getRound`. -/
def getRound (s : Db) (roundId : Uuid) : Except AppError RoundView :=
  match s.round roundId with
  | none => .error (.roundNotFound roundId)
  | some row => .ok (toRoundView row)

/-- Source: `RoundStatePayload`; the server time is left out. -/
structure RoundStatePayload where
  round : RoundView
  multiplierBp : ℤ
  deriving DecidableEq

/-- Source: `RoundsGateway.multiplierFor`. -/
def multiplierFor (now : Time) (round : RoundView) : ℤ :=
  if round.status = .RESOLVED ∨ round.status = .SETTLED then
    round.crashPointBp.getD basisPointsOne
  else
    match round.status, round.startedAt with
    | .RUNNING, some startedAt => multiplierAtElapsed (now - startedAt)
    | _, _ => basisPointsOne

/-- Source: `RoundsGateway.statePayload`. -/
def statePayload (now : Time) (round : RoundView) : RoundStatePayload :=
  ⟨round, multiplierFor now round⟩

/-- Source: `RoundsGateway.sendCurrentState`: what is sent to a client that connects. -/
def sendCurrentState (now : Time) (s : Db) : List RoundStatePayload :=
  match getCurrentRound s with
  | .ok round => [statePayload now round]
  | .error _ => []

/-! ## Events on their way -/

/-- A dispatch whose read has been answered. -/
structure Answer where
  roundId : Uuid
  round : Except AppError RoundView

/-- The gateway of one process: the `round.state` events that it has yet to receive, the
dispatches whose read is under way, those whose read has been answered in the order of the
answers, and what has been sent. -/
structure Gateway where
  db : Db
  queue : List Uuid := []
  reads : List Uuid := []
  answers : List Answer := []
  emitted : List RoundStatePayload := []
  /-- For the record: the events received so far, of rounds that were in the tables. -/
  received : List Uuid := []

/-- What happens next. -/
inductive GatewayEvent
  /-- A transaction commits and notifies of some rounds. -/
  | commit (s : Db) (roundIds : List Uuid)
  /-- The listener hands over the next notification, and `dispatch` starts its read. -/
  | receive
  /-- The database answers the read of a dispatch. -/
  | answer (k : ℕ)
  /-- A dispatch resumes with its answer. -/
  | emit (k : ℕ) (now : Time)

/-- What a dispatch sends once it has its answer; an error is only logged. -/
def Answer.payloads (a : Answer) (now : Time) : List RoundStatePayload :=
  match a.round with
  | .ok round => [statePayload now round]
  | .error _ => []

/-- Source: `RoundsGateway.afterInit` and `dispatch`, which nobody waits for. -/
def Gateway.step (g : Gateway) : GatewayEvent → Option Gateway
  | .commit s roundIds => some { g with db := s, queue := g.queue ++ roundIds }
  | .receive =>
    match g.queue with
    | [] => none
    | id :: rest =>
      some { g with
        queue := rest
        reads := g.reads ++ [id]
        received := g.received ++ if (g.db.round id).isSome then [id] else [] }
  | .answer k =>
    g.reads[k]?.map fun id =>
      { g with
        reads := g.reads.eraseIdx k
        answers := g.answers ++ [⟨id, getRound g.db id⟩] }
  | .emit k now =>
    g.answers[k]?.map fun a =>
      { g with
        answers := g.answers.eraseIdx k
        emitted := g.emitted ++ a.payloads now }

/-- No event is on its way. -/
def Gateway.Quiet (g : Gateway) : Prop := g.queue = [] ∧ g.reads = [] ∧ g.answers = []

/-- A commit moves rounds along their lifecycle and notifies of each round that has changed
its status. -/
structure Announces (s s' : Db) (roundIds : List Uuid) : Prop where
  moves : ∀ id r, s.round id = some r → ∃ r', s'.round id = some r' ∧ r.status.Leads r'.status
  announced : ∀ id r r', s.round id = some r → s'.round id = some r' → r'.status ≠ r.status →
    id ∈ roundIds

/-- The commits that the engine makes. -/
def Gateway.Announced (g : Gateway) : GatewayEvent → Prop
  | .commit s roundIds => Announces g.db s roundIds
  | _ => True

/-- One step among those that are admitted. -/
def Gateway.Step (admits : Gateway → GatewayEvent → Prop) (g g' : Gateway) : Prop :=
  ∃ e, admits g e ∧ g.step e = some g'

end Tessera
