import Tessera.Transactions.Program
import Tessera.Transactions.Pool
import Tessera.Transactions.Logic
import Tessera.Transactions.Soundness
import Tessera.Transactions.Solo
import Tessera.Transactions.Writes
import Tessera.Transactions.Layers
import Tessera.Transactions.Within
import Tessera.Transactions.Annals
import Tessera.Transactions.Progress
import Tessera.Js.Number
import Tessera.Contracts.Types
import Tessera.Contracts.Money
import Tessera.Contracts.CrashCurve
import Tessera.Contracts.Fairness
import Tessera.Contracts.Roulette
import Tessera.HashChain.Orbit
import Tessera.Relational.Table
import Tessera.Database.Schema
import Tessera.Database.Statements
import Tessera.Ledger.Service
import Tessera.Ledger.Balanced
import Tessera.Ledger.Journal
import Tessera.Ledger.Rules
import Tessera.Books.Effect
import Tessera.Books.Consistent
import Tessera.Books.Discipline
import Tessera.Books.Terms
import Tessera.Books.Placing
import Tessera.Books.Settling
import Tessera.Books.Enrolling
import Tessera.Books.Clerical
import Tessera.Books.System
import Tessera.Books.Reconciliation
import Tessera.Books.Settlement
import Tessera.Books.Funds
import Tessera.Rounds.Service
import Tessera.Rounds.Placing
import Tessera.Rounds.Fairness
import Tessera.Rounds.Engine
import Tessera.Rounds.Crash
import Tessera.Rounds.Lifecycle
import Tessera.Rounds.Transitions
import Tessera.Rounds.Selections
import Tessera.Rounds.Outcomes
import Tessera.Rounds.Payouts
import Tessera.Rounds.CashOuts
import Tessera.Rounds.Safety
import Tessera.Auth.Service
import Tessera.Calls
import Tessera.Database.Isolation
import Tessera.Database.Clerical
import Tessera.Database.Parts
import Tessera.Database.Overlay
import Tessera.Database.Regime
import Tessera.Auth.Lineage
import Tessera.Auth.Rotation
import Tessera.Auth.Succession
import Tessera.Live.Gateway
import Tessera.Live.Broadcast
import Tessera.Live.Reconnect
import Tessera.HashChain.Allotment
import Tessera.Rounds.Positions
import Tessera.Rounds.Openings
import Tessera.Contracts.Published
import Tessera.Rounds.Wheel
import Tessera.Admin.Overview
import Tessera.Relational.Keyset
import Tessera.Ledger.History
import Tessera.Transactions.Sequential
import Tessera.Ledger.Alone
import Tessera.Ledger.Sequence
import Tessera.Ledger.Order
import Tessera.Transactions.Checked
import Tessera.Books.Constraints
import Tessera.Books.Alone
import Tessera.Rounds.Voiding
import Tessera.Transactions.Executed
import Tessera.Rounds.Told
import Tessera.Rounds.Views
import Tessera.Rounds.Announced
import Tessera.Live.Service
import Tessera.Rounds.Secrecy
import Tessera.Rounds.Latest
import Tessera.Books.Deadlock
import Tessera.Relational.Dml
import Tessera.Database.Raw
import Tessera.Rounds.Leader
import Tessera.Rounds.Ticks
import Tessera.Rounds.Replays
import Tessera.Auth.Revocation
