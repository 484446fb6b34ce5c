import Mathlib.Tactic

/-!
# One engine at a time

Every process of the application could run the engine.  The one that gets an advisory lock of the
database when it comes up does; the lock belongs to the session of a connection that it keeps for it.

* `Replica` — one process, and the session of its connection;
* `Replica.step`, `Cluster.step` — the parts of the source between two `await`s, and what the database
  and the network do meanwhile;
* `Replica.Sound`, `Cluster.Sound` — the invariant;
* `oneEngine` — two processes tick at once only if one was told to stop, or has lost its session;
* `follower_idle` — a process that did not get the lock never ticks.

Source: `src/src/rounds/leader-election.service.ts`, `src/src/rounds/round-engine.service.ts`
`onApplicationBootstrap`, `start`, `onModuleDestroy`, `safeTick`.
-/

namespace Tessera

/-- Where `onApplicationBootstrap` and its call of `tryAcquire` stand. -/
inductive Bootstrap
  | pending
  | connecting
  /-- `pg_try_advisory_lock` was sent. -/
  | asking
  /-- It was executed. -/
  | answered (acquired : Bool)
  /-- `tryAcquire` has returned `true`. -/
  | acquired
  | over
  deriving DecidableEq

/-- Where a call of `release` stands. -/
inductive Releasing
  /-- `pg_advisory_unlock` was sent. -/
  | unlocking
  /-- It was executed, or it failed. -/
  | unlocked
  /-- `client.end` was called. -/
  | ending
  deriving DecidableEq

/-- A process of the application. -/
structure Replica where
  /-- `client` is set and `clientConnected`. -/
  connected : Bool := false
  leader : Bool := false
  timer : Bool := false
  ticking : Bool := false
  stopped : Bool := false
  bootstrap : Bootstrap := .pending
  releasing : List Releasing := []
  /-- The calls of `tick` that have not returned. -/
  ticks : ℕ := 0
  /-- The server still has the session of the connection. -/
  session : Bool := false
  /-- The session has the lock. -/
  holds : Bool := false
  deriving DecidableEq

/-! ## The source between two `await`s -/

/-- Source: `RoundEngineService.start`. -/
def Replica.start (r : Replica) : Replica :=
  if r.timer then r else { r with stopped := false, timer := true }

/-- Source: `LeaderElectionService.tryAcquire`, as far as its first `await`. -/
def Replica.tryAcquire (r : Replica) : Replica :=
  if r.leader then { r with bootstrap := .acquired }
  else if r.connected then { r with bootstrap := .asking }
  else { r with bootstrap := .connecting }

/-- Source: `RoundEngineService.safeTick`, as far as `tick`. -/
def Replica.safeTick (r : Replica) : Replica :=
  if r.ticking || r.stopped then r else { r with ticking := true, ticks := r.ticks + 1 }

/-- Source: `LeaderElectionService.release`, as far as its first `await`. -/
def Replica.release (r : Replica) : Replica :=
  if r.connected = false then r
  else if r.leader then { r with releasing := r.releasing ++ [.unlocking] }
  else { r with releasing := r.releasing ++ [.ending] }

/-- The `finally` of `release`, as far as `client.end`; without a client it throws. -/
def Replica.finishRelease (r : Replica) (k : ℕ) : Replica :=
  { r with
    leader := false
    releasing := if r.connected then r.releasing.set k .ending else r.releasing.eraseIdx k }

/-- Source: the two `onModuleDestroy`, which Nest calls one after the other. -/
def Replica.onModuleDestroy (r : Replica) : Replica :=
  ({ r with stopped := true, timer := false } : Replica).release.release

/-! ## Processes side by side -/

/-- What can happen to a process. -/
inductive Occurrence
  | bootstrap
  | connect
  /-- The server executes `pg_try_advisory_lock`. -/
  | tryLock
  /-- Its answer arrives. -/
  | answer
  | start
  /-- The connection fails before there is an answer. -/
  | fail
  /-- The interval fires. -/
  | fire
  /-- A call of `tick` returns, or throws. -/
  | ticked
  | destroy
  /-- The server executes the `pg_advisory_unlock` of the `k`-th call of `release`. -/
  | unlock (k : ℕ)
  /-- It fails. -/
  | reject (k : ℕ)
  | finish (k : ℕ)
  /-- The connection is closed. -/
  | close (k : ℕ)
  /-- The server gives up the session. -/
  | lose
  | crash
  deriving DecidableEq

/-- What happens to a process, where it can happen; the lock may be free. -/
def Replica.step (free : Bool) (r : Replica) : Occurrence → Option Replica
  | .bootstrap => if r.bootstrap = .pending then some r.tryAcquire else none
  | .connect =>
    if r.bootstrap = .connecting then
      some { r with connected := true, session := true, bootstrap := .asking }
    else none
  | .tryLock =>
    if r.bootstrap = .asking ∧ r.session = true then
      some { r with holds := free || r.holds, bootstrap := .answered (free || r.holds) }
    else none
  | .answer =>
    match r.bootstrap with
    | .answered acquired =>
      some { r with leader := acquired, bootstrap := if acquired then .acquired else .over }
    | _ => none
  | .start => if r.bootstrap = .acquired then some { r with bootstrap := .over }.start else none
  | .fail =>
    match r.bootstrap with
    | .connecting | .asking | .answered _ => some { r with bootstrap := .over }
    | _ => none
  | .fire => if r.timer then some r.safeTick else none
  | .ticked => if 0 < r.ticks then some { r with ticking := false, ticks := r.ticks - 1 } else none
  -- the modules are destroyed once they have come up
  | .destroy => if r.bootstrap = .over then some r.onModuleDestroy else none
  | .unlock k =>
    if r.releasing[k]? = some .unlocking ∧ r.session = true then
      some { r with holds := false, releasing := r.releasing.set k .unlocked }
    else none
  | .reject k =>
    if r.releasing[k]? = some .unlocking then
      some { r with releasing := r.releasing.set k .unlocked }
    else none
  | .finish k => if r.releasing[k]? = some .unlocked then some (r.finishRelease k) else none
  | .close k =>
    if r.releasing[k]? = some .ending then
      some
        { r with
          connected := false
          session := false
          holds := false
          releasing := r.releasing.eraseIdx k }
    else none
  | .lose => some { r with session := false, holds := false }
  | .crash => some { bootstrap := .over }

/-- The processes that were ever there. -/
abbrev Cluster := List Replica

/-- A process comes up, or something happens to one. -/
def Cluster.step (rs : Cluster) : Option (ℕ × Occurrence) → Option Cluster
  | none => some (rs ++ [{}])
  | some (i, o) =>
    rs[i]?.bind fun r => (r.step (rs.all fun q => !q.holds) o).map fun r' => rs.set i r'

/-- One cluster comes from another one. -/
def Cluster.Leads : Cluster → Cluster → Prop :=
  Relation.ReflTransGen fun rs rs' => ∃ o, rs.step o = some rs'

/-! ## One process -/

/-- What is true of one process. -/
structure Replica.Sound (r : Replica) : Prop where
  ticks : r.ticks = if r.ticking then 1 else 0
  early : r.bootstrap ≠ .over →
    r.timer = false ∧ r.stopped = false ∧ r.ticking = false ∧ r.releasing = []
  silent : r.leader = true → r.bootstrap = .acquired ∨ r.bootstrap = .over
  acquired : r.bootstrap = .acquired → r.leader = true
  timer : r.timer = true → r.leader = true ∧ r.stopped = false
  ticking : r.ticking = true → r.timer = true ∨ r.stopped = true
  releasing : r.releasing ≠ [] → r.stopped = true
  holds : r.stopped = false → r.session = true →
    r.leader = true ∨ r.bootstrap = .answered true → r.holds = true

section
variable {r r' q : Replica} {free : Bool} {o : Occurrence} {k : ℕ}

/-- A process that has just been started. -/
theorem Replica.Sound.fresh : ({} : Replica).Sound where
  ticks := rfl
  early _ := ⟨rfl, rfl, rfl, rfl⟩
  silent h := by cases h
  acquired h := by cases h
  timer h := by cases h
  ticking h := by cases h
  releasing h := absurd rfl h
  holds _ h := by cases h

/-- A process that has the lock starts its interval. -/
theorem Replica.Sound.start (h : r.Sound) (hacquired : r.bootstrap = .acquired) :
    ({ r with bootstrap := .over } : Replica).start.Sound := by
  have hleader := h.acquired hacquired
  obtain ⟨htimer, hstopped, hticking, hreleasing⟩ := h.early (by rw [hacquired]; decide)
  unfold Replica.start
  simp only [htimer]
  exact
    { ticks := h.ticks
      early := fun hne => absurd rfl hne
      silent := fun _ => .inr rfl
      acquired := fun heq => by cases heq
      timer := fun _ => ⟨hleader, rfl⟩
      ticking := fun _ => .inl rfl
      releasing := fun hne => absurd hreleasing hne
      holds := fun _ hsession _ => h.holds hstopped hsession (.inl hleader) }

/-- The interval fires; a tick that is under way keeps the next one out. -/
theorem Replica.Sound.safeTick (h : r.Sound) (htimer : r.timer = true) : r.safeTick.Sound := by
  unfold Replica.safeTick
  split
  · exact h
  · next hidle =>
    simp only [Bool.or_eq_true, not_or, Bool.not_eq_true] at hidle
    have hticks := h.ticks
    rw [hidle.1] at hticks
    exact
      { ticks := by simp [hticks]
        early := fun hne => by
          have hearly := (h.early hne).1
          rw [htimer] at hearly
          cases hearly
        silent := h.silent
        acquired := h.acquired
        timer := h.timer
        ticking := fun _ => .inl htimer
        releasing := h.releasing
        holds := h.holds }

/-- A call of `release` begins in a process that was told to stop. -/
theorem Replica.Sound.release (h : r.Sound) (hstopped : r.stopped = true) : r.release.Sound := by
  have hmore : ∀ phase, ({ r with releasing := r.releasing ++ [phase] } : Replica).Sound := by
    intro phase
    exact
      { ticks := h.ticks
        early := fun hne => by
          have hearly := (h.early hne).2.1
          rw [hstopped] at hearly
          cases hearly
        silent := h.silent
        acquired := h.acquired
        timer := h.timer
        ticking := h.ticking
        releasing := fun _ => hstopped
        holds := h.holds }
  unfold Replica.release
  split
  · exact h
  · split
    · exact hmore _
    · exact hmore _

/-- A call of `release` does not set the flag. -/
theorem release_stopped : r.release.stopped = r.stopped := by
  unfold Replica.release
  split
  · rfl
  · split <;> rfl

/-- A process that is told to stop clears its interval and releases twice. -/
theorem Replica.Sound.onModuleDestroy (h : r.Sound) (hover : r.bootstrap = .over) :
    r.onModuleDestroy.Sound := by
  have hstopped : ({ r with stopped := true, timer := false } : Replica).Sound :=
    { ticks := h.ticks
      early := fun hne => absurd hover hne
      silent := h.silent
      acquired := h.acquired
      timer := fun htimer => by cases htimer
      ticking := fun _ => .inr rfl
      releasing := fun _ => rfl
      holds := fun hrunning => by cases hrunning }
  exact (hstopped.release rfl).release (release_stopped.trans rfl)

/-- A process that was told to stop has come up, and its interval is cleared. -/
theorem Replica.Sound.of_stopped (h : r.Sound) (hstopped : r.stopped = true) :
    r.bootstrap = .over ∧ r.timer = false := by
  constructor
  · by_contra hne
    have hrunning := (h.early hne).2.1
    rw [hstopped] at hrunning
    cases hrunning
  · by_contra htimer
    have hrunning := (h.timer (by simpa using htimer)).2
    rw [hstopped] at hrunning
    cases hrunning

/-- While it stops, nothing depends on its connection, its lock and its flag. -/
theorem Replica.Sound.stopping (h : r.Sound) (hstopped : r.stopped = true)
    (connected leader session holds : Bool) (releasing : List Releasing) :
    ({ r with connected, leader, session, holds, releasing } : Replica).Sound := by
  obtain ⟨hover, htimer⟩ := h.of_stopped hstopped
  exact
    { ticks := h.ticks
      early := fun hne => absurd hover hne
      silent := fun _ => .inr hover
      acquired := fun heq => by
        rw [hover] at heq
        cases heq
      timer := fun hset => by
        rw [htimer] at hset
        cases hset
      ticking := h.ticking
      releasing := fun _ => hstopped
      holds := fun hrunning => by
        rw [hstopped] at hrunning
        cases hrunning }

/-- Only a process that was told to stop releases. -/
theorem Replica.Sound.stopped_of_releasing (h : r.Sound) {phase : Releasing}
    (hk : r.releasing[k]? = some phase) : r.stopped = true :=
  h.releasing fun hnil => by simp [hnil] at hk

/-- A process that has not come up yet, further on its way. -/
theorem Replica.Sound.coming (h : r.Sound) (hne : r.bootstrap ≠ .over)
    {connected leader session holds : Bool} {bootstrap : Bootstrap}
    (hsilent : leader = true ↔ bootstrap = .acquired)
    (hholds : session = true → leader = true ∨ bootstrap = .answered true → holds = true) :
    ({ r with connected, leader, session, holds, bootstrap } : Replica).Sound := by
  obtain ⟨htimer, hstopped, hticking, hreleasing⟩ := h.early hne
  exact
    { ticks := h.ticks
      early := fun _ => ⟨htimer, hstopped, hticking, hreleasing⟩
      silent := fun hleader => .inl (hsilent.1 hleader)
      acquired := hsilent.2
      timer := fun hset => by
        rw [htimer] at hset
        cases hset
      ticking := fun hset => by
        rw [hticking] at hset
        cases hset
      releasing := fun hmore => absurd hreleasing hmore
      holds := fun _ => hholds }

/-- A process that comes up without the lock. -/
theorem Replica.Sound.follower (h : r.Sound) (hne : r.bootstrap ≠ .over) {leader : Bool}
    (hleader : leader = false) : ({ r with leader, bootstrap := .over } : Replica).Sound := by
  obtain ⟨htimer, hstopped, hticking, hreleasing⟩ := h.early hne
  exact
    { ticks := h.ticks
      early := fun hearly => absurd rfl hearly
      silent := fun _ => .inr rfl
      acquired := fun heq => by cases heq
      timer := fun hset => by
        rw [htimer] at hset
        cases hset
      ticking := fun hset => by
        rw [hticking] at hset
        cases hset
      releasing := h.releasing
      holds := fun _ _ hset => by
        rw [hleader] at hset
        rcases hset with hset | hset <;> cases hset }

/-- A process that has not asked for the lock is not the leader. -/
theorem Replica.Sound.not_leader (h : r.Sound) (hacquired : r.bootstrap ≠ .acquired)
    (hover : r.bootstrap ≠ .over) : r.leader = false := by
  by_contra hset
  exact (h.silent (by simpa using hset)).elim hacquired hover

/-- `tryAcquire` is called by a process that has just been started. -/
theorem Replica.Sound.tryAcquire (h : r.Sound) (hpending : r.bootstrap = .pending) :
    r.tryAcquire.Sound := by
  have hne : r.bootstrap ≠ .over := by rw [hpending]; decide
  have hleader := h.not_leader (by rw [hpending]; decide) hne
  unfold Replica.tryAcquire
  rw [if_neg (by simp [hleader])]
  split
  · exact h.coming hne (by simp [hleader]) (by simp [hleader])
  · exact h.coming hne (by simp [hleader]) (by simp [hleader])

/-- The answer of the server makes the process the leader or a follower. -/
theorem Replica.Sound.answered (h : r.Sound) {acquired : Bool}
    (hanswered : r.bootstrap = .answered acquired) :
    ({ r with
        leader := acquired
        bootstrap := if acquired then .acquired else .over } : Replica).Sound := by
  have hne : r.bootstrap ≠ .over := by simp [hanswered]
  cases acquired with
  | true =>
    have hstopped := (h.early hne).2.1
    refine h.coming hne (by simp) fun hsession _ => ?_
    exact h.holds hstopped hsession (.inr hanswered)
  | false => exact h.follower hne rfl

/-- A process that could not ask for the lock comes up as a follower. -/
theorem Replica.Sound.fail (h : r.Sound) (hacquired : r.bootstrap ≠ .acquired)
    (hover : r.bootstrap ≠ .over) : ({ r with bootstrap := .over } : Replica).Sound :=
  h.follower hover (h.not_leader hacquired hover)

/-- A tick that returns was the only one. -/
theorem Replica.Sound.ticked (h : r.Sound) (hpos : 0 < r.ticks) :
    ({ r with ticking := false, ticks := r.ticks - 1 } : Replica).Sound := by
  have hticks := h.ticks
  exact
    { ticks := by
        split at hticks
        · simp [hticks]
        · omega
      early := fun hne => ⟨(h.early hne).1, (h.early hne).2.1, rfl, (h.early hne).2.2.2⟩
      silent := h.silent
      acquired := h.acquired
      timer := h.timer
      ticking := fun hset => by cases hset
      releasing := h.releasing
      holds := h.holds }

/-- Without a session there is no lock. -/
theorem Replica.Sound.lose (h : r.Sound) :
    ({ r with session := false, holds := false } : Replica).Sound :=
  { ticks := h.ticks
    early := h.early
    silent := h.silent
    acquired := h.acquired
    timer := h.timer
    ticking := h.ticking
    releasing := h.releasing
    holds := fun _ hsession => by cases hsession }

/-- Nothing is left of a process that has crashed. -/
theorem Replica.Sound.crashed : ({ bootstrap := .over } : Replica).Sound where
  ticks := rfl
  early hne := absurd rfl hne
  silent hset := by cases hset
  acquired heq := by cases heq
  timer hset := by cases hset
  ticking hset := by cases hset
  releasing hmore := absurd rfl hmore
  holds _ hsession := by cases hsession

/-- What is true of a process stays true. -/
theorem Replica.Sound.step (h : r.Sound) (hstep : r.step free o = some r') : r'.Sound := by
  cases o with
  | bootstrap =>
    obtain ⟨hpending, ⟨⟩⟩ := Option.ite_none_right_eq_some.1 hstep
    exact h.tryAcquire hpending
  | connect =>
    obtain ⟨hconnecting, ⟨⟩⟩ := Option.ite_none_right_eq_some.1 hstep
    have hne : r.bootstrap ≠ .over := by rw [hconnecting]; decide
    have hleader := h.not_leader (by rw [hconnecting]; decide) hne
    exact h.coming hne (by simp [hleader]) (by simp [hleader])
  | tryLock =>
    obtain ⟨⟨hasking, -⟩, ⟨⟩⟩ := Option.ite_none_right_eq_some.1 hstep
    have hne : r.bootstrap ≠ .over := by rw [hasking]; decide
    have hleader := h.not_leader (by rw [hasking]; decide) hne
    exact h.coming hne (by simp [hleader]) (by simp [hleader])
  | answer =>
    simp only [Replica.step] at hstep
    split at hstep
    · next hanswered =>
      cases hstep
      exact h.answered hanswered
    · cases hstep
  | start =>
    obtain ⟨hacquired, ⟨⟩⟩ := Option.ite_none_right_eq_some.1 hstep
    exact h.start hacquired
  | fail =>
    simp only [Replica.step] at hstep
    split at hstep
    · next heq =>
      cases hstep
      exact h.fail (by simp [heq]) (by simp [heq])
    · next heq =>
      cases hstep
      exact h.fail (by simp [heq]) (by simp [heq])
    · next heq =>
      cases hstep
      exact h.fail (by simp [heq]) (by simp [heq])
    · cases hstep
  | fire =>
    obtain ⟨htimer, ⟨⟩⟩ := Option.ite_none_right_eq_some.1 hstep
    exact h.safeTick htimer
  | ticked =>
    obtain ⟨hpos, ⟨⟩⟩ := Option.ite_none_right_eq_some.1 hstep
    exact h.ticked hpos
  | destroy =>
    obtain ⟨hover, ⟨⟩⟩ := Option.ite_none_right_eq_some.1 hstep
    exact h.onModuleDestroy hover
  | unlock k =>
    obtain ⟨hk, ⟨⟩⟩ := Option.ite_none_right_eq_some.1 hstep
    exact h.stopping (h.stopped_of_releasing hk.1) r.connected r.leader r.session false _
  | reject k =>
    obtain ⟨hk, ⟨⟩⟩ := Option.ite_none_right_eq_some.1 hstep
    exact h.stopping (h.stopped_of_releasing hk) r.connected r.leader r.session r.holds _
  | finish k =>
    obtain ⟨hk, ⟨⟩⟩ := Option.ite_none_right_eq_some.1 hstep
    exact h.stopping (h.stopped_of_releasing hk) r.connected false r.session r.holds _
  | close k =>
    obtain ⟨hk, ⟨⟩⟩ := Option.ite_none_right_eq_some.1 hstep
    exact h.stopping (h.stopped_of_releasing hk) false r.leader false false _
  | lose =>
    cases hstep
    exact h.lose
  | crash =>
    cases hstep
    exact .crashed

/-- Until the server executes it, `tryAcquire` takes no lock. -/
@[simp] theorem tryAcquire_holds : r.tryAcquire.holds = r.holds := by
  unfold Replica.tryAcquire
  split
  · rfl
  · split <;> rfl

@[simp] theorem start_holds : r.start.holds = r.holds := by
  unfold Replica.start
  split <;> rfl

@[simp] theorem safeTick_holds : r.safeTick.holds = r.holds := by
  unfold Replica.safeTick
  split <;> rfl

/-- Until its first `await`, `release` changes nothing else. -/
theorem release_only : ∃ releasing, r.release = { r with releasing } := by
  unfold Replica.release
  split
  · exact ⟨_, rfl⟩
  · split <;> exact ⟨_, rfl⟩

/-- Telling a process to stop clears its interval, and otherwise only begins to release the lock. -/
theorem onModuleDestroy_only :
    ∃ releasing, r.onModuleDestroy = { r with stopped := true, timer := false, releasing } := by
  obtain ⟨releasing, hfirst⟩ := release_only (r := { r with stopped := true, timer := false })
  obtain ⟨releasing', hsecond⟩ :=
    release_only (r := ({ r with stopped := true, timer := false } : Replica).release)
  refine ⟨releasing', hsecond.trans ?_⟩
  rw [hfirst]

/-- Only an answer of the server gives the lock, and only if it is free. -/
theorem Replica.step_holds (hstep : r.step free o = some r') (hholds : r'.holds = true) :
    r.holds = true ∨ free = true := by
  cases o with
  | tryLock =>
    simp only [Replica.step] at hstep
    split at hstep
    · cases hstep
      exact (Bool.or_eq_true _ _ ▸ hholds : free = true ∨ r.holds = true).symm
    · cases hstep
  | destroy =>
    simp only [Replica.step] at hstep
    split at hstep
    · cases hstep
      obtain ⟨releasing, heq⟩ := onModuleDestroy_only (r := r)
      rw [heq] at hholds
      exact .inl hholds
    · cases hstep
  | lose =>
    cases hstep
    cases hholds
  | crash =>
    cases hstep
    cases hholds
  | unlock k =>
    simp only [Replica.step] at hstep
    split at hstep
    · cases hstep
      cases hholds
    · cases hstep
  | close k =>
    simp only [Replica.step] at hstep
    split at hstep
    · cases hstep
      cases hholds
    · cases hstep
  | _ =>
    simp only [Replica.step] at hstep
    split at hstep <;> cases hstep <;> exact .inl (by simpa [Replica.finishRelease] using hholds)

/-- A process that has come up and has no interval does not start one, and begins no tick. -/
theorem Replica.step_idle (hover : r.bootstrap = .over) (htimer : r.timer = false)
    (hstep : r.step free o = some r') :
    r'.bootstrap = .over ∧ r'.timer = false ∧ r'.ticks ≤ r.ticks := by
  cases o with
  | destroy =>
    simp only [Replica.step, hover, if_true] at hstep
    cases hstep
    obtain ⟨releasing, heq⟩ := onModuleDestroy_only (r := r)
    rw [heq]
    exact ⟨hover, rfl, le_rfl⟩
  | ticked =>
    simp only [Replica.step] at hstep
    split at hstep
    · cases hstep
      exact ⟨hover, htimer, Nat.sub_le _ _⟩
    · cases hstep
  | crash =>
    cases hstep
    exact ⟨rfl, rfl, Nat.zero_le _⟩
  | lose =>
    cases hstep
    exact ⟨hover, htimer, le_rfl⟩
  | unlock k | reject k | finish k | close k =>
    simp only [Replica.step] at hstep
    split at hstep
    · cases hstep
      exact ⟨hover, htimer, le_rfl⟩
    · cases hstep
  | _ => simp [Replica.step, hover, htimer] at hstep

end

/-! ## The processes together -/

/-- What is true of the processes: each is sound, and one at most has the lock. -/
structure Cluster.Sound (rs : Cluster) : Prop where
  each : ∀ r ∈ rs, r.Sound
  one : ∀ {i j : ℕ} {r q : Replica}, i ≠ j → rs[i]? = some r → rs[j]? = some q → r.holds = true →
    q.holds = false

section
variable {rs rs' : Cluster} {i j : ℕ} {r r' q : Replica}

/-- A process of the changed list is the changed one or another one. -/
theorem getElem?_set_cases (h : (rs.set i r')[j]? = some q) :
    j = i ∧ q = r' ∨ j ≠ i ∧ rs[j]? = some q := by
  rw [List.getElem?_set] at h
  split at h
  · next heq =>
    split at h
    · exact .inl ⟨heq.symm, (Option.some.inj h).symm⟩
    · cases h
  · next hne => exact .inr ⟨Ne.symm hne, h⟩

/-- One more process is started. -/
theorem Cluster.Sound.join (h : rs.Sound) : Cluster.Sound (rs ++ [({} : Replica)]) where
  each r hr := by
    rcases List.mem_append.1 hr with hr | hr
    · exact h.each r hr
    · rw [List.mem_singleton.1 hr]
      exact .fresh
  one {i j r q} hij hi hj hholds := by
    have hcases : ∀ {k : ℕ} {z : Replica}, (rs ++ [({} : Replica)])[k]? = some z →
        rs[k]? = some z ∨ z.holds = false := by
      intro k z hz
      rw [List.getElem?_append] at hz
      split at hz
      · exact .inl hz
      · have hmem := List.mem_of_getElem? hz
        rw [List.mem_singleton.1 hmem]
        exact .inr rfl
    rcases hcases hj with hj | hfree
    · rcases hcases hi with hi | hnot
      · exact h.one hij hi hj hholds
      · rw [hnot] at hholds
        cases hholds
    · exact hfree

/-- A process that changes takes the lock only when nobody has it. -/
theorem Cluster.Sound.set (h : rs.Sound) (hr : rs[i]? = some r) (hsound : r'.Sound)
    (hholds : r'.holds = true → r.holds = true ∨ ∀ q ∈ rs, q.holds = false) :
    Cluster.Sound (rs.set i r') where
  each q hq := by
    rcases List.mem_or_eq_of_mem_set hq with hq | rfl
    · exact h.each q hq
    · exact hsound
  one {a b x y} hab ha hb hx := by
    rcases getElem?_set_cases ha with ⟨rfl, rfl⟩ | ⟨-, ha'⟩
    · rcases getElem?_set_cases hb with ⟨rfl, -⟩ | ⟨-, hb⟩
      · exact absurd rfl hab
      · rcases hholds hx with hheld | hfree
        · exact h.one hab hr hb hheld
        · exact hfree y (List.mem_of_getElem? hb)
    · rcases getElem?_set_cases hb with ⟨rfl, rfl⟩ | ⟨-, hb⟩
      · by_contra hy
        rcases hholds (by simpa using hy) with hheld | hfree
        · have hnot := h.one hab ha' hr hx
          rw [hheld] at hnot
          cases hnot
        · have hnot := hfree x (List.mem_of_getElem? ha')
          rw [hx] at hnot
          cases hnot
      · exact h.one hab ha' hb hx

/-- What is true of the processes stays true. -/
theorem Cluster.Sound.step {o : Option (ℕ × Occurrence)} (h : rs.Sound)
    (hstep : rs.step o = some rs') : rs'.Sound := by
  cases o with
  | none =>
    cases hstep
    exact h.join
  | some event =>
    obtain ⟨i, o⟩ := event
    obtain ⟨r, hr, hstep⟩ := Option.bind_eq_some_iff.1 hstep
    obtain ⟨r', hr', rfl⟩ := Option.map_eq_some_iff.1 hstep
    refine h.set hr ((h.each r (List.mem_of_getElem? hr)).step hr') fun hholds => ?_
    refine (Replica.step_holds hr' hholds).imp_right fun hfree q hq => ?_
    simpa using List.all_eq_true.1 hfree q hq

/-- It stays true along a run. -/
theorem Cluster.Leads.sound (hleads : rs.Leads rs') (h : rs.Sound) : rs'.Sound := by
  induction hleads with
  | refl => exact h
  | tail _ hstep ih =>
    obtain ⟨o, ho⟩ := hstep
    exact ih.step ho

/-- No process was ever there. -/
theorem Cluster.Sound.empty : Cluster.Sound [] where
  each r hr := absurd hr List.not_mem_nil
  one {i j r q} _ hi := by simp at hi

/-- A process runs one tick at a time, and two processes tick at the same time only if one of them was
told to stop, or the server has given up its session. -/
theorem oneEngine (h : Cluster.Leads [] rs) (hi : rs[i]? = some r) (hj : rs[j]? = some q) :
    r.ticks ≤ 1 ∧ (i ≠ j → 0 < r.ticks → 0 < q.ticks →
      (r.stopped = true ∨ r.session = false) ∨ q.stopped = true ∨ q.session = false) := by
  have hsound := h.sound .empty
  have hr := hsound.each r (List.mem_of_getElem? hi)
  have hq := hsound.each q (List.mem_of_getElem? hj)
  -- whoever ticks, and was not told to stop, has the lock as long as the session lasts
  have hlocked : ∀ {x : Replica}, x.Sound → 0 < x.ticks → x.stopped = false → x.session = true →
      x.holds = true := by
    intro x hx hticks hstopped hsession
    have hticking : x.ticking = true := by
      by_contra hidle
      have hzero := hx.ticks
      rw [if_neg hidle] at hzero
      omega
    have htimer : x.timer = true := by
      refine (hx.ticking hticking).resolve_right fun hset => ?_
      rw [hstopped] at hset
      cases hset
    exact hx.holds hstopped hsession (.inl (hx.timer htimer).1)
  refine ⟨?_, fun hij hrticks hqticks => ?_⟩
  · have hticks := hr.ticks
    split at hticks <;> omega
  · by_contra hboth
    simp only [not_or, Bool.not_eq_true, Bool.not_eq_false] at hboth
    obtain ⟨⟨hrstopped, hrsession⟩, hqstopped, hqsession⟩ := hboth
    have hrholds := hlocked hr hrticks hrstopped hrsession
    have hqholds := hlocked hq hqticks hqstopped hqsession
    rw [hsound.one hij hi hj hrholds] at hqholds
    cases hqholds

/-- A process that has come up without the lock never ticks, whatever becomes of the others. -/
theorem follower_idle (h : rs.Leads rs') (hi : rs[i]? = some r) (hover : r.bootstrap = .over)
    (htimer : r.timer = false) :
    ∃ r', rs'[i]? = some r' ∧ r'.bootstrap = .over ∧ r'.timer = false ∧ r'.ticks ≤ r.ticks := by
  induction h with
  | refl => exact ⟨r, hi, hover, htimer, le_rfl⟩
  | @tail rs₁ rs₂ _ hstep ih =>
    obtain ⟨r₁, hi₁, hover₁, htimer₁, hticks₁⟩ := ih
    obtain ⟨o, ho⟩ := hstep
    cases o with
    | none =>
      cases ho
      have hlt : i < rs₁.length := (List.getElem?_eq_some_iff.1 hi₁).1
      refine ⟨r₁, ?_, hover₁, htimer₁, hticks₁⟩
      rw [List.getElem?_append_left hlt]
      exact hi₁
    | some event =>
      obtain ⟨j, o⟩ := event
      obtain ⟨q, hq, ho⟩ := Option.bind_eq_some_iff.1 ho
      obtain ⟨q', hq', rfl⟩ := Option.map_eq_some_iff.1 ho
      rw [List.getElem?_set]
      by_cases hji : j = i
      · subst hji
        rw [hi₁] at hq
        cases hq
        obtain ⟨hover₂, htimer₂, hticks₂⟩ := Replica.step_idle hover₁ htimer₁ hq'
        have hlt := (List.getElem?_eq_some_iff.1 hi₁).1
        exact ⟨q', by rw [if_pos rfl, if_pos hlt], hover₂, htimer₂, hticks₂.trans hticks₁⟩
      · exact ⟨r₁, by rw [if_neg hji, hi₁], hover₁, htimer₁, hticks₁⟩

end

/-! ## Two runs -/

/-- The cluster after some events. -/
def Cluster.replay (rs : Cluster) : List (Option (ℕ × Occurrence)) → Option Cluster
  | [] => some rs
  | o :: rest => (rs.step o).bind fun rs' => rs'.replay rest

/-- A list of occurrences is a run. -/
theorem Cluster.Leads.replay {rs rs' : Cluster} (events : List (Option (ℕ × Occurrence)))
    (h : rs.replay events = some rs') : rs.Leads rs' := by
  induction events generalizing rs with
  | nil =>
    cases h
    exact .refl
  | cons o rest ih =>
    obtain ⟨rs₁, hstep, hrest⟩ := Option.bind_eq_some_iff.1 h
    exact .head ⟨o, hstep⟩ (ih hrest)

/-- A process comes up. -/
def comesUp (i : ℕ) : List (Option (ℕ × Occurrence)) :=
  [none, some (i, .bootstrap), some (i, .connect), some (i, .tryLock), some (i, .answer)]

/-- The leader is told to stop in the middle of a tick. -/
def handover : List (Option (ℕ × Occurrence)) :=
  comesUp 0 ++ [some (0, .start), some (0, .fire), some (0, .destroy), some (0, .unlock 0)] ++
    comesUp 1 ++ [some (1, .start), some (1, .fire)]

/-- It gives up the lock without waiting for the tick, and the next process begins one. -/
theorem oneEngine_handover :
    ∃ rs r q, Cluster.replay [] handover = some rs ∧ rs[0]? = some r ∧ rs[1]? = some q ∧
      r.ticks = 1 ∧ q.ticks = 1 ∧
      ((r.stopped = true ∨ r.session = false) ∨ q.stopped = true ∨ q.session = false) :=
  ⟨_, _, _, rfl, rfl, rfl, rfl, rfl,
    (oneEngine (.replay handover rfl) rfl rfl).2 zero_ne_one one_pos one_pos⟩

/-- Two processes have come up, the first of them as the leader. -/
def bothUp : Cluster := (Cluster.replay [] (comesUp 0 ++ comesUp 1)).getD []

/-- The leader crashes, and the other process stays as it was. -/
theorem follower_idle_crash :
    ∃ rs' r', bothUp.replay [some (0, .start), some (0, .fire), some (0, .crash)] = some rs' ∧
      rs'[1]? = some r' ∧ r'.bootstrap = .over ∧ r'.timer = false ∧ r'.ticks ≤ 0 := by
  obtain ⟨r', hr'⟩ := follower_idle
    (.replay [some (0, .start), some (0, .fire), some (0, .crash)] rfl)
    (rfl : bothUp[1]? = some _) rfl rfl
  exact ⟨_, r', rfl, hr'⟩

end Tessera
