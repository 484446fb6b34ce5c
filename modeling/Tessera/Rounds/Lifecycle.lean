import Tessera.Contracts.Types

/-!
# The lifecycle of a round

The statuses of a round in the order in which it goes through them.

* `RoundStatus.Next` — one transition; `RoundStatus.Leads` — any number of them;
* `RoundStatus.rank` — how far a round has come.

Source: `packages/contracts/src/round.types.ts` `RoundStatus`.
-/

namespace Tessera

/-- One transition. -/
inductive RoundStatus.Next : RoundStatus → RoundStatus → Prop
  | lock : Next .OPEN .LOCKED
  | start : Next .LOCKED .RUNNING
  | resolve : Next .RUNNING .RESOLVED
  | settle : Next .RESOLVED .SETTLED
  | voidOpen : Next .OPEN .VOIDED
  | voidLocked : Next .LOCKED .VOIDED
  | voidRunning : Next .RUNNING .VOIDED

/-- Any number of transitions. -/
def RoundStatus.Leads : RoundStatus → RoundStatus → Prop := Relation.ReflTransGen RoundStatus.Next

/-- How far a round has come; the two ends are equally far. -/
def RoundStatus.rank : RoundStatus → ℕ
  | .OPEN => 0
  | .LOCKED => 1
  | .RUNNING => 2
  | .RESOLVED => 3
  | .SETTLED | .VOIDED => 4

namespace RoundStatus

/-- A status moves on to one of a higher rank. -/
theorem Next.rank_lt {a b : RoundStatus} (h : a.Next b) : a.rank < b.rank := by
  cases h <;> decide

/-- A status leads to itself. -/
theorem Leads.refl (a : RoundStatus) : a.Leads a := Relation.ReflTransGen.refl

/-- Moving on twice is moving on. -/
theorem Leads.trans {a b c : RoundStatus} (h : a.Leads b) (h' : b.Leads c) : a.Leads c :=
  Relation.ReflTransGen.trans h h'

/-- One transition is moving on. -/
theorem Next.leads {a b : RoundStatus} (h : a.Next b) : a.Leads b :=
  Relation.ReflTransGen.single h

/-- A round never goes back to a status of a lower rank. -/
theorem Leads.rank_le {a b : RoundStatus} (h : a.Leads b) : a.rank ≤ b.rank := by
  induction h with
  | refl => exact le_rfl
  | tail _ hnext ih => exact ih.trans hnext.rank_lt.le

end RoundStatus

end Tessera
