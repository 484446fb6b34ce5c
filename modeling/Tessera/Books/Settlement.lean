import Tessera.Books.System

/-!
# Every bet is settled once

Along every run each bet is journalled once when it is placed and once when it is closed, a
closed bet stays as it is, and a round that is over has no bet left.

* `SettledOnce` — what is true of the bets and the journal in one state;
* `Settling` — what is true of two states, the second later in the run;
* `reachable_settledOnce` — both hold along every run.
-/

namespace Tessera

open Relational Transactions

/-- What the journal says about the bets. -/
structure SettledOnce (s : Db) : Prop where
  /-- One journal row records that the bet was placed. -/
  placed : ∀ b ∈ s.bets, s.journalled .BET_PLACED ⟨"bet", b.id⟩ = 1
  /-- One records how it was closed, and no other kind of row refers to it. -/
  closed : ∀ b ∈ s.bets, ∀ kind, kind ≠ .BET_PLACED →
    s.journalled kind ⟨"bet", b.id⟩ = if b.status.settlement = some kind then 1 else 0
  /-- A round that is over has no active bet. -/
  ended : ∀ b ∈ s.bets, ∀ r, s.round b.roundId = some r →
    r.status = .SETTLED ∨ r.status = .VOIDED → b.status ≠ .ACTIVE

/-- What is true of a state and of a later one. -/
structure Settling (s s' : Db) : Prop where
  /-- A bet stays, and once it is closed it stays as it is. -/
  final : ∀ b ∈ s.bets, ∃ b' ∈ s'.bets, b'.core = b.core ∧ (b.status ≠ .ACTIVE → b' = b)
  /-- No bet is added to a round that is not open. -/
  shut : ∀ roundId r, s.round roundId = some r → r.status ≠ .OPEN →
    s'.betsOn roundId = s.betsOn roundId

section
variable {config : Config} {crypto : Crypto} {s s' : Db}

/-- In consistent books every bet has the journal rows that its status asks for. -/
theorem Consistent.settledOnce (h : Consistent config s) : SettledOnce s where
  placed b hb := by
    rw [h.journalled.bets b hb, Bet.expects, if_pos (.inl rfl)]
  closed b hb kind hkind := by
    rw [h.journalled.bets b hb, Bet.expects]
    simp [hkind]
  ended b hb r hr hover hactive := by
    obtain ⟨r', hr', hnot⟩ := (h.fits b hb).round
    obtain rfl : r = r' := Option.some.inj (hr.symm.trans hr')
    have hlive := hnot hactive
    rcases hover with hstatus | hstatus <;>
    · rw [hstatus] at hlive
      cases hlive

/-- From consistent books on, closed bets are final. -/
theorem Consistent.settling (h : Consistent config s) (hs : History s s') : Settling s s' where
  final b hb := by
    have hfind : s.bet b.id = some b := lookup_of_mem h.keyed.bets hb
    by_cases hactive : b.status = .ACTIVE
    · obtain ⟨b', hb', hcore⟩ := hs.bet hfind
      exact ⟨b', Db.bet_mem hb', hcore, fun hne => absurd hactive hne⟩
    · exact ⟨b, Db.bet_mem (hs.settled hfind hactive), rfl, fun _ => rfl⟩
  shut roundId r hr hne := (hs.closed hr hne).1

/-- Along every run each bet is settled at most once, and no stake is stranded. -/
theorem reachable_settledOnce {w w' : System} (h : Reaches config crypto w)
    (h' : World.Run database (program config crypto) (fun _ _ => True) w w') :
    SettledOnce w'.db ∧ Settling w.db w'.db :=
  ⟨(reachable_consistent (h.trans h')).settledOnce,
    (reachable_consistent h).settling (reachable_history h h')⟩

end

/-- The events of the small game up to the settlement, and the settlement. -/
theorem reachable_settledOnce_smallGame :
    (executed smallGame).db.transactions.map Transaction.kind =
      [.SIGNUP_GRANT, .BET_PLACED, .BET_PLACED, .BET_PLACED, .BET_CASHOUT, .BET_LOST] ∧
      SettledOnce (executed smallGame).db ∧
      Settling (executed []).db (executed smallGame).db :=
  ⟨by decide +kernel, reachable_settledOnce (reaches_executed []) (reaches_executed smallGame)⟩

end Tessera
