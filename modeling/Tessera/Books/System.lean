import Tessera.Books.Clerical
import Tessera.Books.Enrolling

/-!
# The whole system keeps the books

Every call of the system, started from any consistent state, keeps the discipline of the books
and its own terms; so every state that a pool of sessions reaches from the migrated schema is
consistent, and no history is rewritten on the way.

* `system_verified` — every call is verified;
* `migrated_consistent`, `reachable_sound` — the reachable worlds;
* `executed` — runs of a small system, to be evaluated.
-/

namespace Tessera

open Relational Transactions Transactions.Program

section
variable (config : Config) (crypto : Crypto)

/-- An answer that is put into a reply changes nothing. -/
theorem wp_reply {c : Call} {α : Type} {g : α → Reply} {p : Action α} {s : Db}
    {f : Standing Db LockKey Write}
    (h : wp database (books config) (terms config c) p f s fun r _ _ => NotTrigger r) :
    wp database (books config) (terms config c) (g <$> p) f s fun r _ _ => NotTrigger r := by
  refine wp_map (wp_mono (fun r f s hr => ?_) h)
  cases r with
  | ok _ => simp [NotTrigger, Except.map]
  | error e => exact fun a kind n heq => hr a kind n (by cases heq; rfl)

/-- Every call keeps the discipline of the books and its own terms. -/
theorem system_verified : Verified database (books config) (program config crypto) (terms config)
    fun _ => Call.answer where
  discipline := books_lawful config
  lawful := terms_lawful config
  stable _ := answer_stable config
  lost _ := answer_lost
  start _ c s hs _ := by
    cases c with
    | register dto => exact wp_map (register_verified config crypto dto s)
    | login dto => exact wp_map login_verified
    | refresh rawToken => exact wp_map refresh_verified
    | logout rawToken => exact wp_map logout_verified
    | placeBet input => exact placeBet_verified hs
    | cashOut input => exact wp_reply config (cashOut_verified hs)
    | openRoundIfDue game => exact wp_map (openRoundIfDue_verified rfl fun w hw => by cases hw)
    | lockRound roundId => exact wp_map (lockRound_verified rfl rfl)
    | startRound roundId => exact wp_map (startRound_verified rfl rfl)
    | resolveRound roundId => exact wp_map (resolveRound_verified rfl rfl)
    | settleRound roundId => exact wp_reply config (settleRound_verified hs ⟨rfl, rfl⟩)
    | voidRound roundId => exact wp_reply config (voidRound_verified hs ⟨rfl, rfl⟩)
    | tickGame game => exact wp_reply config tickGame_verified

/-- All balances are zero at first. -/
theorem migrated_balanceOf (id : Uuid) : migrated.balanceOf id = 0 := by
  unfold Db.balanceOf
  cases hb : migrated.balance id with
  | none => rfl
  | some b =>
    have hzero : ∀ b ∈ migrated.balances, b.balance = 0 := by decide
    exact hzero b (lookup_mem hb)

/-- The migrated schema is consistent. -/
theorem migrated_consistent : Consistent config migrated where
  keyed := ⟨List.nodup_nil, by decide, by decide, List.nodup_nil, rfl⟩
  housed := ⟨List.prefix_refl _, fun a ha => .inl ha, fun _ h => absurd h List.not_mem_nil⟩
  fits _ h := absurd h List.not_mem_nil
  balanced :=
    { escrow := rfl
      house := rfl
      wallet := fun _ h => absurd h List.not_mem_nil
      mint := by
        rw [migrated_balanceOf]
        change 0 = -(config.signupGrantMinor * ((0 : ℕ) : ℤ))
        simp }
  journalled :=
    { bets := fun _ h => absurd h List.not_mem_nil
      known := fun _ h => absurd h List.not_mem_nil
      grants := rfl
      legs := fun _ h => absurd h List.not_mem_nil
      entries := fun _ h => absurd h List.not_mem_nil }
  tidy id a _ _ := (migrated_balanceOf id).ge

/-- The pool of sessions of the system. -/
abbrev System := World Db LockKey Write Inputs AppError Reply Call

/-- One session of the pool. -/
abbrev Client := Session Db LockKey Write Inputs AppError Reply Call

/-- The runs of the system from the migrated schema: any calls, at any time, in any order. -/
def Reaches (w : System) : Prop :=
  World.Run database (program config crypto) (fun _ _ => True) ⟨migrated, []⟩ w

/-- The terms ask nothing of the circumstances of a statement. -/
theorem admits_all (w : System) (e : Event Inputs Call) : Admits (terms config) w e := by
  cases e with
  | start c => trivial
  | run i x => exact fun _ _ => trivial
  | kill i => trivial

/-- The runs of the system from any state of the tables, with nobody at work. -/
def RunsFrom (s : Db) (w : System) : Prop :=
  World.Run database (program config crypto) (fun _ _ => True) ⟨s, []⟩ w

variable {config crypto}

/-- In every world reached from consistent books the books are consistent, and every session
keeps its terms. -/
theorem runsFrom_sound {s : Db} (hs : Consistent config s) {w : System}
    (h : RunsFrom config crypto s w) :
    w.Sound database (books config) (terms config) fun _ => Call.answer :=
  (World.Sound.run (system_verified config crypto) (fun w e _ => admits_all config w e) h
    (.idle hs)).1

/-- In every state that is reached every call under way keeps its terms. -/
theorem reachable_sound {w : System} (h : Reaches config crypto w) :
    w.Sound database (books config) (terms config) fun _ => Call.answer :=
  runsFrom_sound (migrated_consistent config) h

/-- The books are consistent in every state that is reached. -/
theorem reachable_consistent {w : System} (h : Reaches config crypto w) :
    Consistent config w.db :=
  (reachable_sound h).inv

/-- History is not rewritten along a run. -/
theorem reachable_history {w w' : System} (h : Reaches config crypto w)
    (h' : World.Run database (program config crypto) (fun _ _ => True) w w') :
    History w.db w'.db :=
  (World.Sound.run (system_verified config crypto) (fun w e _ => admits_all config w e) h'
    (reachable_sound h)).2

end

/-! ## A small system

Readings, functions and events with which a run can be evaluated. -/

/-- The `n`-th UUID of a process. -/
def uuidAt (n : ℕ) : Uuid := n * 2 ^ 80 + 4 * 2 ^ 76

/-- The ids of the small system are of version 4. -/
theorem uuidAt_isVersion4 (n : ℕ) : (uuidAt n).isVersion4 = true := by
  have hdigit : (n * 2 ^ 80 + 4 * 2 ^ 76) / 2 ^ 76 % 16 = 4 := by omega
  unfold Uuid.isVersion4
  rw [beq_iff_eq]
  exact hdigit

/-- The `n`-th reading of a process. -/
def readingAt (n : ℕ) (now : Time) : Inputs where
  now := now
  uuid := uuidAt n
  uuid_version4 := uuidAt_isVersion4 n
  randomBytes := String.ofList (List.replicate n 'r')
  order := ⟨id, fun rows => List.Perm.refl rows⟩

/-- Functions on short texts in place of the cryptographic ones. -/
def plainCrypto : Crypto where
  sha256 text := "h" ++ text
  hmacSha256 _ message := "00000001" ++ message ++ "0000000000000"
  argon2Hash password _ := password
  argon2Verify hash password := hash == password
  signRefreshToken _ jti _ _ _ := String.ofList (List.replicate (jti / 2 ^ 80) 't')
  verifyRefreshToken _ _ := true
  signAccessToken _ email _ _ _ := email
  lower text := text.toLower

/-- Chains of ten positions. -/
def smallConfig : Config := { fairnessChainLength := 10 }

/-- Session `i` executes `n` statements, its readings numbered from `k`. -/
def turns (i n k : ℕ) (now : Time := 0) : List (Event Inputs Call) :=
  (List.range n).map fun j => .run i (readingAt (k + j) now)

/-- The world after a list of events. -/
def executed (events : List (Event Inputs Call)) : System :=
  World.attempt database (program smallConfig plainCrypto) ⟨migrated, []⟩ events

/-- The states of a list of events are reached. -/
theorem reaches_executed (events : List (Event Inputs Call)) :
    Reaches smallConfig plainCrypto (executed events) :=
  World.Run.attempt (fun _ _ => trivial) (.refl _) events

/-- A user with a grant of 100000 wins 1000 on red, loses 700 on black and has 300 on a live
round. -/
def smallGame : List (Event Inputs Call) :=
  .start (.register ⟨"ann", "Ann", "secret"⟩) :: turns 0 50 0 ++
  .start (.openRoundIfDue .ROULETTE) :: turns 1 40 100 ++
  .start (.openRoundIfDue .CRASH) :: turns 2 40 200 ++
  .start (.placeBet ⟨uuidAt 2, uuidAt 109, 1000, "a", some ⟨"RED", none⟩⟩) ::
    turns 3 50 300 ++
  .start (.placeBet ⟨uuidAt 2, uuidAt 109, 700, "b", some ⟨"BLACK", none⟩⟩) ::
    turns 4 50 400 ++
  .start (.placeBet ⟨uuidAt 2, uuidAt 204, 300, "c", none⟩) :: turns 5 50 500 ++
  .start (.lockRound (uuidAt 109)) :: turns 6 20 600 ++
  .start (.startRound (uuidAt 109)) :: turns 7 20 700 ++
  .start (.resolveRound (uuidAt 109)) :: turns 8 20 800 ++
  .start (.settleRound (uuidAt 109)) :: turns 9 120 900

end Tessera
