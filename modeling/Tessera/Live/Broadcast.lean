import Tessera.Live.Gateway

/-!
# The order in which states are broadcast

Dispatches that resume in the order in which their reads were answered broadcast the states of
a round in the order of its lifecycle, one for each event received; a dispatch that is overtaken
broadcasts an old one last.

* `Gateway.InOrder` — no dispatch overtakes another one for the same round;
* `Orderly` — the invariant; `Orderly.step`, `Orderly.run`;
* `broadcast_in_order` — what the clients see; `broadcast_overtaken` — what they see otherwise.
-/

namespace Tessera

/-- The statuses of a round that have been broadcast, oldest first. -/
def Gateway.shown (g : Gateway) (roundId : Uuid) : List RoundStatus :=
  (g.emitted.filter fun p => p.round.id == roundId).map fun p => p.round.status

/-- The status of a round that a dispatch is about to broadcast. -/
def Answer.status? (roundId : Uuid) (a : Answer) : Option RoundStatus :=
  if a.roundId = roundId then a.round.toOption.map RoundView.status else none

/-- The statuses of a round in answers that wait to be broadcast, oldest first. -/
def Gateway.waiting (g : Gateway) (roundId : Uuid) : List RoundStatus :=
  g.answers.filterMap (Answer.status? roundId)

/-- Nobody announces wrongly, and no dispatch resumes before another one for the same round
whose read was answered earlier. -/
def Gateway.InOrder (g : Gateway) (e : GatewayEvent) : Prop :=
  g.Announced e ∧
    match e with
    | .emit k _ => ∀ a, g.answers[k]? = some a → ∀ b ∈ g.answers.take k, b.roundId ≠ a.roundId
    | _ => True

/-- The statuses of one round on their way to the clients, in the order in which they arrive. -/
structure Orderly (g : Gateway) (roundId : Uuid) : Prop where
  named : ∀ a ∈ g.answers, ∀ round, a.round = .ok round → round.id = a.roundId
  sorted : (g.shown roundId ++ g.waiting roundId).Pairwise fun a b => a.rank ≤ b.rank
  bounded : ∀ status ∈ g.shown roundId ++ g.waiting roundId,
    ∃ r, g.db.round roundId = some r ∧ status.rank ≤ r.status.rank
  last : ∀ status, (g.shown roundId ++ g.waiting roundId).getLast? = some status →
    (∃ r, g.db.round roundId = some r ∧ r.status = status) ∨ roundId ∈ g.queue ∨ roundId ∈ g.reads
  found : roundId ∈ g.received → (g.db.round roundId).isSome = true
  answered : g.received.count roundId ≤
    (g.shown roundId ++ g.waiting roundId).length + g.reads.count roundId

section
variable {g g' : Gateway} {roundId : Uuid}

/-- A commit. -/
theorem Orderly.commit (h : Orderly g roundId) {s : Db} {roundIds : List Uuid}
    (hs : Announces g.db s roundIds) :
    Orderly { g with db := s, queue := g.queue ++ roundIds } roundId where
  named := h.named
  sorted := h.sorted
  bounded status hstatus := by
    obtain ⟨r, hr, hle⟩ := h.bounded status hstatus
    obtain ⟨r', hr', hleads⟩ := hs.moves roundId r hr
    exact ⟨r', hr', hle.trans hleads.rank_le⟩
  last status hstatus := by
    rcases h.last status hstatus with ⟨r, hr, hr_status⟩ | hqueue | hreads
    · obtain ⟨r', hr', -⟩ := hs.moves roundId r hr
      by_cases hsame : r'.status = r.status
      · exact .inl ⟨r', hr', hsame.trans hr_status⟩
      · exact .inr (.inl (List.mem_append_right _ (hs.announced roundId r r' hr hr' hsame)))
    · exact .inr (.inl (List.mem_append_left _ hqueue))
    · exact .inr (.inr hreads)
  found hreceived := by
    obtain ⟨r, hr⟩ := Option.isSome_iff_exists.1 (h.found hreceived)
    obtain ⟨r', hr', -⟩ := hs.moves roundId r hr
    exact Option.isSome_iff_exists.2 ⟨r', hr'⟩
  answered := h.answered

/-- A notification that is received. -/
theorem Orderly.receive (h : Orderly g roundId) {id : Uuid} {rest : List Uuid}
    (hqueue : g.queue = id :: rest) :
    Orderly { g with
      queue := rest
      reads := g.reads ++ [id]
      received := g.received ++ if (g.db.round id).isSome then [id] else [] } roundId where
  named := h.named
  sorted := h.sorted
  bounded := h.bounded
  last status hstatus := by
    rcases h.last status hstatus with hdb | hmem | hreads
    · exact .inl hdb
    · rw [hqueue] at hmem
      rcases List.mem_cons.1 hmem with rfl | hmem
      · exact .inr (.inr (List.mem_append_right _ List.mem_cons_self))
      · exact .inr (.inl hmem)
    · exact .inr (.inr (List.mem_append_left _ hreads))
  found hreceived := by
    rcases List.mem_append.1 hreceived with hmem | hmem
    · exact h.found hmem
    · split at hmem
      case isTrue hthere =>
        rw [List.mem_singleton.1 hmem]
        exact hthere
      case isFalse => exact absurd hmem List.not_mem_nil
  answered := by
    -- one more event received at the most, and one more read
    have hone : (if (g.db.round id).isSome then [id] else []).count roundId ≤ [id].count roundId := by
      split
      · exact le_rfl
      · exact Nat.zero_le _
    have hbefore := h.answered
    change _ ≤ (g.shown roundId ++ g.waiting roundId).length + _
    rw [List.count_append, List.count_append]
    omega

/-- The view of a round is that of its row. -/
theorem getRound_ok {s : Db} {round : RoundView} (h : getRound s roundId = .ok round) :
    ∃ r, s.round roundId = some r ∧ round = toRoundView r := by
  unfold getRound at h
  cases hr : s.round roundId with
  | none => rw [hr] at h; cases h
  | some r => rw [hr] at h; exact ⟨r, rfl, by cases h; rfl⟩

/-- An element of a list is the one that is erased or it stays. -/
theorem mem_eraseIdx_or {α : Type} {l : List α} {k : ℕ} {a b : α} (hk : l[k]? = some b)
    (ha : a ∈ l) : a = b ∨ a ∈ l.eraseIdx k := by
  by_cases hab : a = b
  · exact .inl hab
  · obtain ⟨j, hj⟩ := List.mem_iff_getElem?.1 ha
    refine .inr (List.mem_eraseIdx_iff_getElem?.2 ⟨j, ?_, hj⟩)
    rintro rfl
    exact hab (Option.some.inj (hj.symm.trans hk))

/-- A read that is answered is one fewer under way, and one more that waits if it has found the
round. -/
theorem Orderly.answered_answer (h : Orderly g roundId) {k : ℕ} {id : Uuid}
    (hk : g.reads[k]? = some id) {g' : Gateway}
    (hwaiting : g'.waiting roundId =
      g.waiting roundId ++ (Answer.status? roundId ⟨id, getRound g.db id⟩).toList) :
    g.received.count roundId ≤
      (g.shown roundId ++ g'.waiting roundId).length + (g.reads.eraseIdx k).count roundId := by
  have hbefore := h.answered
  obtain ⟨hlt, hid⟩ := List.getElem?_eq_some_iff.1 hk
  have hperm := (List.getElem_cons_eraseIdx_perm hlt).count_eq roundId
  rw [hid] at hperm
  rw [hwaiting, ← List.append_assoc, List.length_append]
  by_cases hsame : id = roundId
  · subst hsame
    rw [List.count_cons_self] at hperm
    by_cases hreceived : id ∈ g.received
    · -- an event that was received is about a round that is still there
      obtain ⟨r, hr⟩ := Option.isSome_iff_exists.1 (h.found hreceived)
      have hstatus : Answer.status? id ⟨id, getRound g.db id⟩ = some r.status := by
        simp [Answer.status?, getRound, hr, Except.toOption, toRoundView]
      rw [hstatus, Option.toList_some, List.length_singleton]
      omega
    · rw [List.count_eq_zero_of_not_mem hreceived]
      exact Nat.zero_le _
  · rw [List.count_cons_of_ne hsame] at hperm
    omega

/-- A read that is answered. -/
theorem Orderly.answer (h : Orderly g roundId) {k : ℕ} {id : Uuid} (hk : g.reads[k]? = some id) :
    Orderly { g with
      reads := g.reads.eraseIdx k
      answers := g.answers ++ [⟨id, getRound g.db id⟩] } roundId := by
  -- the new answer, if it is about this round, carries the committed status
  have hnew : ∀ status ∈ (Answer.status? roundId ⟨id, getRound g.db id⟩).toList,
      id = roundId ∧ ∃ r, g.db.round roundId = some r ∧ r.status = status := by
    intro status hstatus
    unfold Answer.status? at hstatus
    split at hstatus
    case isFalse => simp at hstatus
    case isTrue hid =>
    cases hid
    refine ⟨rfl, ?_⟩
    cases hr : getRound g.db id with
    | error e => simp [hr, Except.toOption] at hstatus
    | ok round =>
      obtain ⟨r, hfound, rfl⟩ := getRound_ok hr
      refine ⟨r, hfound, ?_⟩
      simp only [hr, Except.toOption, Option.map_some, Option.toList_some,
        List.mem_singleton] at hstatus
      exact hstatus.symm
  have hwaiting : ∀ g' : Gateway, g'.answers = g.answers ++ [⟨id, getRound g.db id⟩] →
      g'.waiting roundId =
        g.waiting roundId ++ (Answer.status? roundId ⟨id, getRound g.db id⟩).toList := by
    intro g' hg'
    unfold Gateway.waiting
    rw [hg', List.filterMap_append]
    cases hs : Answer.status? roundId ⟨id, getRound g.db id⟩ <;> simp [hs]
  refine ⟨fun a ha round hround => ?_, ?_, fun status hstatus => ?_, fun status hstatus => ?_,
    h.found, ?_⟩
  · rcases List.mem_append.1 ha with ha | ha
    · exact h.named a ha round hround
    · rw [List.mem_singleton.1 ha] at hround ⊢
      obtain ⟨r, hr, rfl⟩ := getRound_ok hround
      have hid : r.id = id := Relational.lookup_key hr
      exact hid
  · rw [hwaiting _ rfl, ← List.append_assoc]
    refine List.pairwise_append.2 ⟨h.sorted, ?_, fun a ha b hb => ?_⟩
    · cases Answer.status? roundId ⟨id, getRound g.db id⟩ <;> simp
    · obtain ⟨r, hr, hle⟩ := h.bounded a ha
      obtain ⟨-, r', hr', hb'⟩ := hnew b hb
      obtain rfl : r = r' := Option.some.inj (hr.symm.trans hr')
      exact hb' ▸ hle
  · rw [hwaiting _ rfl, ← List.append_assoc] at hstatus
    rcases List.mem_append.1 hstatus with hold | hlast
    · exact h.bounded status hold
    · obtain ⟨-, r, hr, hr'⟩ := hnew status hlast
      exact ⟨r, hr, hr' ▸ le_rfl⟩
  · rw [hwaiting _ rfl, ← List.append_assoc] at hstatus
    cases hs : Answer.status? roundId ⟨id, getRound g.db id⟩ with
    | some st =>
      rw [hs, Option.toList_some, List.getLast?_append_cons] at hstatus
      have hst : st = status := by simpa using hstatus
      obtain ⟨-, hdb⟩ := hnew st (by simp [hs])
      exact .inl (hst ▸ hdb)
    | none =>
      rw [hs, Option.toList_none, List.append_nil] at hstatus
      rcases h.last status hstatus with hdb | hqueue | hreads
      · exact .inl hdb
      · exact .inr (.inl hqueue)
      · rcases mem_eraseIdx_or hk hreads with rfl | hreads
        · -- a read about this round finds it, since the round has been shown before
          exfalso
          obtain ⟨r, hr, -⟩ := h.bounded status (List.mem_of_getLast? hstatus)
          simp [Answer.status?, getRound, hr, Except.toOption] at hs
        · exact .inr (.inr hreads)
  · exact h.answered_answer hk (hwaiting _ rfl)

/-- What a dispatch broadcasts about a round. -/
theorem shown_payloads {a : Answer} (hnamed : ∀ round, a.round = .ok round → round.id = a.roundId)
    (roundId : Uuid) (now : Time) :
    (((a.payloads now).filter fun p => p.round.id == roundId).map fun p => p.round.status) =
      (Answer.status? roundId a).toList := by
  unfold Answer.payloads Answer.status? statePayload
  cases hround : a.round with
  | error e => simp [Except.toOption]
  | ok round =>
    have hid := hnamed round hround
    by_cases hsame : a.roundId = roundId
    · simp [hsame, hid, Except.toOption]
    · simp [hsame, hid]

/-- The answers before and after one of them that comes first for its round. -/
theorem waiting_split {answers : List Answer} {k : ℕ} {a : Answer} (hk : answers[k]? = some a)
    (horder : ∀ b ∈ answers.take k, b.roundId ≠ a.roundId) (roundId : Uuid) :
    answers.filterMap (Answer.status? roundId) =
      (Answer.status? roundId a).toList ++
        (answers.eraseIdx k).filterMap (Answer.status? roundId) := by
  obtain ⟨hlt, rfl⟩ := List.getElem?_eq_some_iff.1 hk
  have hsplit : answers = answers.take k ++ answers[k] :: answers.drop (k + 1) := by
    rw [← List.drop_eq_getElem_cons hlt, List.take_append_drop]
  rw [List.eraseIdx_eq_take_drop_succ, List.filterMap_append]
  conv_lhs => rw [hsplit, List.filterMap_append]
  cases hs : Answer.status? roundId answers[k] with
  | none =>
    rw [List.filterMap_cons_none hs]
    rfl
  | some st =>
    -- nothing before it is about the same round
    have hid : answers[k].roundId = roundId := by
      by_contra hne
      simp [Answer.status?, hne] at hs
    have hnone : (answers.take k).filterMap (Answer.status? roundId) = [] := by
      refine List.filterMap_eq_nil_iff.2 fun b hb => if_neg fun hb' => ?_
      exact horder b hb (hb'.trans hid.symm)
    rw [hnone, List.filterMap_cons_some hs]
    rfl

/-- A dispatch that resumes in its turn broadcasts what was next. -/
theorem shown_waiting_emit (hnamed : ∀ a ∈ g.answers, ∀ round, a.round = .ok round →
    round.id = a.roundId) {k : ℕ} {now : Time} {a : Answer} (hk : g.answers[k]? = some a)
    (horder : ∀ b ∈ g.answers.take k, b.roundId ≠ a.roundId) (hanswers : g'.answers =
    g.answers.eraseIdx k) (hemitted : g'.emitted = g.emitted ++ a.payloads now) (roundId : Uuid) :
    g'.shown roundId ++ g'.waiting roundId = g.shown roundId ++ g.waiting roundId := by
  unfold Gateway.shown Gateway.waiting
  rw [hanswers, hemitted, List.filter_append, List.map_append,
    shown_payloads (hnamed a (List.mem_of_getElem? hk)), waiting_split hk horder,
    List.append_assoc]

/-- A dispatch that resumes in its turn. -/
theorem Orderly.emit (h : Orderly g roundId) {k : ℕ} {now : Time} {a : Answer}
    (hk : g.answers[k]? = some a) (horder : ∀ b ∈ g.answers.take k, b.roundId ≠ a.roundId) :
    Orderly { g with
      answers := g.answers.eraseIdx k
      emitted := g.emitted ++ a.payloads now } roundId := by
  have hsame : ∀ g' : Gateway, g'.answers = g.answers.eraseIdx k →
      g'.emitted = g.emitted ++ a.payloads now →
      g'.shown roundId ++ g'.waiting roundId = g.shown roundId ++ g.waiting roundId :=
    fun _ hanswers hemitted => shown_waiting_emit h.named hk horder hanswers hemitted roundId
  refine ⟨fun b hb => h.named b (List.mem_of_mem_eraseIdx hb), ?_, ?_, ?_, h.found, ?_⟩
  · rw [hsame _ rfl rfl]
    exact h.sorted
  · rw [hsame _ rfl rfl]
    exact h.bounded
  · rw [hsame _ rfl rfl]
    exact h.last
  · rw [hsame _ rfl rfl]
    exact h.answered

/-- Every step in order keeps the invariant. -/
theorem Orderly.step (h : Orderly g roundId) (hstep : Gateway.Step Gateway.InOrder g g') :
    Orderly g' roundId := by
  obtain ⟨e, ⟨hannounced, horder⟩, he⟩ := hstep
  cases e with
  | commit s roundIds =>
    cases he
    exact h.commit hannounced
  | receive =>
    cases hqueue : g.queue with
    | nil =>
      simp only [Gateway.step, hqueue] at he
      cases he
    | cons id rest =>
      simp only [Gateway.step, hqueue] at he
      cases he
      exact h.receive hqueue
  | answer k =>
    obtain ⟨id, hk, rfl⟩ := Option.map_eq_some_iff.1 he
    exact h.answer hk
  | emit k now =>
    obtain ⟨a, hk, rfl⟩ := Option.map_eq_some_iff.1 he
    exact h.emit hk (horder a hk)

/-- An orderly gateway stays so along a run. -/
theorem Orderly.run (h : Orderly g roundId)
    (hrun : Relation.ReflTransGen (Gateway.Step Gateway.InOrder) g g') : Orderly g' roundId := by
  induction hrun with
  | refl => exact h
  | tail _ hstep ih => exact ih.step hstep

/-- A gateway that has just started. -/
theorem Orderly.start (s : Db) (roundId : Uuid) : Orderly { db := s } roundId where
  named _ ha := absurd ha List.not_mem_nil
  sorted := List.Pairwise.nil
  bounded _ hstatus := absurd hstatus List.not_mem_nil
  last _ hstatus := by cases hstatus
  found hreceived := absurd hreceived List.not_mem_nil
  answered := Nat.zero_le _

/-- Nothing is waiting at a quiet gateway. -/
theorem Gateway.Quiet.waiting (h : g.Quiet) (roundId : Uuid) : g.waiting roundId = [] := by
  unfold Gateway.waiting
  rw [h.2.2]
  rfl

/-- Once nothing is on its way, the last state broadcast is the committed one. -/
theorem Orderly.latest (h : Orderly g roundId) (hquiet : g.Quiet) {status : RoundStatus}
    (hstatus : (g.shown roundId).getLast? = some status) :
    ∃ r, g.db.round roundId = some r ∧ r.status = status := by
  have hlast := h.last status (by rwa [hquiet.waiting, List.append_nil])
  rw [hquiet.1, hquiet.2.1] at hlast
  simpa using hlast

end

/-- What is wanted of the states that are broadcast about a round: they go forward, and once
nothing is on its way the last one is the committed one, and each event received of a round that
was there has led to one. -/
structure Gateway.Faithful (g : Gateway) (roundId : Uuid) : Prop where
  forward : (g.shown roundId).Pairwise fun a b => a.rank ≤ b.rank
  latest : g.Quiet → ∀ status, (g.shown roundId).getLast? = some status →
    ∃ r, g.db.round roundId = some r ∧ r.status = status
  answered : g.Quiet → g.received.count roundId ≤ (g.shown roundId).length

/-- An orderly gateway is faithful. -/
theorem Orderly.faithful {g : Gateway} {roundId : Uuid} (h : Orderly g roundId) :
    g.Faithful roundId where
  forward := (List.pairwise_append.1 h.sorted).1
  latest hquiet _ hstatus := h.latest hquiet hstatus
  answered hquiet := by
    have hanswered := h.answered
    rwa [hquiet.waiting, List.append_nil, hquiet.2.1, List.count_nil, Nat.add_zero] at hanswered

/-- As long as no dispatch is overtaken, the states of every round are broadcast faithfully. -/
theorem broadcast_in_order (s : Db) {g : Gateway}
    (hrun : Relation.ReflTransGen (Gateway.Step Gateway.InOrder) { db := s } g) (roundId : Uuid) :
    g.Faithful roundId :=
  ((Orderly.start s roundId).run hrun).faithful

/-! ## A dispatch that is overtaken -/

/-- A crash round in some status. -/
def liveRound (status : RoundStatus) : Round where
  id := 9
  nonce := 1
  game := .CRASH
  status := status
  seed := "seed"
  seedHash := "hash"
  seedRevealed := none
  crashPointBp := some 20000
  winningPocket := none
  chainId := none
  chainIndex := none
  opensAt := 0
  locksAt := 10
  startedAt := none
  resolvedAt := none
  settledAt := none

/-- The gateway after a list of events, each with what it leaves behind. -/
theorem run_of_steps {admits : Gateway → GatewayEvent → Prop} {g g' g'' : Gateway}
    {e : GatewayEvent} (h : Relation.ReflTransGen (Gateway.Step admits) g g')
    (hadmits : admits g' e) (hstep : g'.step e = some g'') :
    Relation.ReflTransGen (Gateway.Step admits) g g'' :=
  h.tail ⟨e, hadmits, hstep⟩

/-- A live round that has moved on is announced. -/
theorem announces_liveRound {status status' : RoundStatus} (h : status.Leads status') :
    Announces { rounds := [liveRound status] } { rounds := [liveRound status'] } [9] := by
  have hfind : ∀ {status : RoundStatus} {id : Uuid} {r : Round},
      Db.round { rounds := [liveRound status] } id = some r → id = 9 ∧ r = liveRound status := by
    intro status id r hr
    have hid : r.id = id := Relational.lookup_key hr
    have hmem : r ∈ [liveRound status] := Relational.lookup_mem hr
    rw [List.mem_singleton.1 hmem] at hid ⊢
    exact ⟨hid.symm, rfl⟩
  refine ⟨fun id r hr => ?_, fun id r r' hr _ _ => ?_⟩
  · obtain ⟨rfl, rfl⟩ := hfind hr
    exact ⟨liveRound status', rfl, h⟩
  · obtain ⟨rfl, rfl⟩ := hfind hr
    exact List.mem_singleton.2 rfl

/-- The same round locked and started, each read answered and broadcast in turn. -/
theorem broadcast_in_order_example :
    ∃ g : Gateway, g.shown 9 = [.LOCKED, .RUNNING] ∧ g.received = [9, 9] ∧ g.Quiet ∧
      g.Faithful 9 := by
  have hlock := announces_liveRound RoundStatus.Next.lock.leads
  have hstart := announces_liveRound RoundStatus.Next.start.leads
  have hfirst : ∀ {a : Answer} {answers : List Answer}, ∀ b ∈ answers.take 0, b.roundId ≠ a.roundId :=
    fun b hb => absurd hb (by simp)
  have hlocked : Relation.ReflTransGen (Gateway.Step Gateway.InOrder)
      { db := { rounds := [liveRound .OPEN] } } _ :=
    run_of_steps (e := .emit 0 0) (run_of_steps (e := .answer 0) (run_of_steps (e := .receive)
      (run_of_steps (e := .commit { rounds := [liveRound .LOCKED] } [9]) .refl ⟨hlock, trivial⟩ rfl)
      ⟨trivial, trivial⟩ rfl) ⟨trivial, trivial⟩ rfl) ⟨trivial, fun _ _ => hfirst⟩ rfl
  have hrun := run_of_steps (e := .emit 0 0) (run_of_steps (e := .answer 0)
    (run_of_steps (e := .receive)
      (run_of_steps (e := .commit { rounds := [liveRound .RUNNING] } [9]) hlocked
        ⟨hstart, trivial⟩ rfl)
      ⟨trivial, trivial⟩ rfl) ⟨trivial, trivial⟩ rfl) ⟨trivial, fun _ _ => hfirst⟩ rfl
  exact ⟨_, by decide, by decide, ⟨rfl, rfl, rfl⟩, broadcast_in_order _ hrun 9⟩

/-- What is left once the round has been locked and started, both reads answered in turn, and the
second dispatch has resumed first. -/
def overtaken : Gateway where
  db := { rounds := [liveRound .RUNNING] }
  emitted := [statePayload 0 (toRoundView (liveRound .RUNNING)),
    statePayload 0 (toRoundView (liveRound .LOCKED))]
  received := [9, 9]

/-- A dispatch that is overtaken broadcasts a status that the round has left. -/
theorem broadcast_overtaken :
    Relation.ReflTransGen (Gateway.Step Gateway.Announced)
      { db := { rounds := [liveRound .OPEN] } } overtaken ∧
    overtaken.shown 9 = [.RUNNING, .LOCKED] ∧ overtaken.Quiet ∧ ¬ overtaken.Faithful 9 := by
  have hlock := announces_liveRound RoundStatus.Next.lock.leads
  have hstart := announces_liveRound RoundStatus.Next.start.leads
  have hshown : overtaken.shown 9 = [.RUNNING, .LOCKED] := by decide
  refine ⟨?_, hshown, ⟨rfl, rfl, rfl⟩, fun h => ?_⟩
  · have hlocked : Relation.ReflTransGen (Gateway.Step Gateway.Announced)
        { db := { rounds := [liveRound .OPEN] } } _ :=
      run_of_steps (e := .answer 0) (run_of_steps (e := .receive)
        (run_of_steps (e := .commit { rounds := [liveRound .LOCKED] } [9]) .refl hlock rfl)
        trivial rfl) trivial rfl
    have hstarted := run_of_steps (e := .answer 0) (run_of_steps (e := .receive)
      (run_of_steps (e := .commit { rounds := [liveRound .RUNNING] } [9]) hlocked hstart rfl)
      trivial rfl) trivial rfl
    exact run_of_steps (e := .emit 0 0) (run_of_steps (e := .emit 1 0) hstarted trivial rfl)
      trivial rfl
  · have hforward := h.forward
    rw [hshown] at hforward
    revert hforward
    decide

end Tessera
