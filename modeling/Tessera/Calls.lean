import Tessera.Rounds.Engine
import Tessera.Auth.Service

/-!
# The calls of the system

Everything a process can be asked to do, as one type, and the program that does it.
-/

namespace Tessera

open Transactions

/-- What a client or the engine's timer asks for. -/
inductive Call
  | register (dto : RegisterDto)
  | login (dto : LoginDto)
  | refresh (rawToken : String)
  | logout (rawToken : String)
  | placeBet (input : PlaceBetInput)
  | cashOut (input : CashOutInput)
  | openRoundIfDue (game : GameKind)
  | lockRound (roundId : Uuid)
  | startRound (roundId : Uuid)
  | resolveRound (roundId : Uuid)
  | settleRound (roundId : Uuid)
  | voidRound (roundId : Uuid)
  | tickGame (game : GameKind)
  deriving DecidableEq

/-- What a call answers with. -/
inductive Reply
  | none
  | bet (view : BetView)
  | auth (result : AuthResult)
  | opened (roundId : Option Uuid)
  deriving DecidableEq

/-- The program of a call. -/
def program (config : Config) (crypto : Crypto) : Call → Action Reply
  | .register dto => Reply.auth <$> register config crypto dto
  | .login dto => Reply.auth <$> login config crypto dto
  | .refresh rawToken => Reply.auth <$> refresh config crypto rawToken
  | .logout rawToken => (fun _ => Reply.none) <$> logout crypto rawToken
  | .placeBet input => Reply.bet <$> placeBet config input
  | .cashOut input => Reply.bet <$> cashOut input
  | .openRoundIfDue game => Reply.opened <$> openRoundIfDue config crypto game
  | .lockRound roundId => (fun _ => Reply.none) <$> lockRound roundId
  | .startRound roundId => (fun _ => Reply.none) <$> startRound roundId
  | .resolveRound roundId => (fun _ => Reply.none) <$> resolveRound roundId
  | .settleRound roundId => (fun _ => Reply.none) <$> settleRound roundId
  | .voidRound roundId => (fun _ => Reply.none) <$> voidRound roundId
  | .tickGame game => (fun _ => Reply.none) <$> tickGame config crypto game

end Tessera
