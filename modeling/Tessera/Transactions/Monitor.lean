import Tessera.Transactions.Within

/-!
# Programs under a monitor

Which locks a program takes with what it holds, and what it writes, can often be read off its tree:
no invariant is needed, and no state.  A monitor goes along with the program, allows each of its
statements or does not, and notes down what it has seen.

* `Monitor`, `Program.Passes` — a program whose statements are all allowed, on every path;
* `Passes.bind`, `Passes.transaction`, `Passes.selectForLock`, `Passes.of_within` — the rules;
* `wp_passes` — a precondition that is there already, with what the monitor adds to it;
* `lockMonitor`, `wp_locks` — the monitor of the locks;
* `writeMonitor`, `wp_writes` — the monitor of the writes.
-/

namespace Transactions

variable {σ κ ω ι ε α β γ : Type}

/-- What can be seen of a statement without the state that it is executed in. -/
inductive Sight (κ ω : Type) where
  | lock (key : κ) (mode : LockMode)
  | write (row : ω)
  | draw (row : ω)
  | over

/-- What is allowed after what has been seen, and what is noted down of it. -/
structure Monitor (κ ω γ : Type) where
  allows : γ → Sight κ ω → Prop
  next : γ → Sight κ ω → γ

namespace Program

/-- On every path the monitor allows the statements of the program, and the program ends in `K`.  A
commit may fail with an error of the kind `C`. -/
def Passes (M : Monitor κ ω γ) (C : ε → Prop) :
    Program σ κ ω ι ε α → γ → (Except ε α → γ → Prop) → Prop
  | .done r, g, K => K r g
  | .input next, g, K => ∀ x, (next x).Passes M C g K
  | .query next, g, K => ∀ s, (next s).Passes M C g K
  | .lock key mode next, g, K =>
    M.allows g (.lock key mode) ∧ ∀ s, (next s).Passes M C (M.next g (.lock key mode)) K
  | .write row next, g, K => M.allows g (.write row) ∧ next.Passes M C (M.next g (.write row)) K
  | .instant row next, g, K =>
    M.allows g (.draw row) ∧ ∀ s, (next s).Passes M C (M.next g (.draw row)) K
  | .commit next, g, K => M.allows g .over ∧
    ∀ r, (∀ e, r = .error e → C e) → (next r).Passes M C (M.next g .over) K
  | .rollback next, g, K => M.allows g .over ∧ next.Passes M C (M.next g .over) K

namespace Passes
variable {M : Monitor κ ω γ} {C : ε → Prop} {g : γ} {K : Except ε α → γ → Prop}

/-- A program that ends in one way ends in every way that it implies. -/
theorem mono {K' : Except ε α → γ → Prop} (hK : ∀ r g, K r g → K' r g)
    {p : Program σ κ ω ι ε α} : ∀ {g : γ}, p.Passes M C g K → p.Passes M C g K' := by
  induction p with
  | done r => exact fun h => hK _ _ h
  | input next ih => exact fun h x => ih x (h x)
  | query next ih => exact fun h s => ih s (h s)
  | lock key mode next ih => exact fun h => ⟨h.1, fun s => ih s (h.2 s)⟩
  | write row next ih => exact fun h => ⟨h.1, ih h.2⟩
  | instant row next ih => exact fun h => ⟨h.1, fun s => ih s (h.2 s)⟩
  | commit next ih => exact fun h => ⟨h.1, fun r hr => ih r (h.2 r hr)⟩
  | rollback next ih => exact fun h => ⟨h.1, ih h.2⟩

/-- One program after another. -/
theorem handle {K : Except ε β → γ → Prop} {k : Except ε α → Program σ κ ω ι ε β}
    {p : Program σ κ ω ι ε α} : ∀ {g : γ},
    p.Passes M C g (fun r g => (k r).Passes M C g K) → (p.handle k).Passes M C g K := by
  induction p with
  | done r => exact fun h => h
  | input next ih => exact fun h x => ih x (h x)
  | query next ih => exact fun h s => ih s (h s)
  | lock key mode next ih => exact fun h => ⟨h.1, fun s => ih s (h.2 s)⟩
  | write row next ih => exact fun h => ⟨h.1, ih h.2⟩
  | instant row next ih => exact fun h => ⟨h.1, fun s => ih s (h.2 s)⟩
  | commit next ih => exact fun h => ⟨h.1, fun r hr => ih r (h.2 r hr)⟩
  | rollback next ih => exact fun h => ⟨h.1, ih h.2⟩

/-- What remains to be shown after a value; an error passes by. -/
def after (M : Monitor κ ω γ) (C : ε → Prop) (k : α → Program σ κ ω ι ε β)
    (K : Except ε β → γ → Prop) : Except ε α → γ → Prop
  | .ok a, g => (k a).Passes M C g K
  | .error e, g => K (.error e) g

/-- One block after another: an error of the first one ends both. -/
theorem bind {K : Except ε β → γ → Prop} {k : α → Program σ κ ω ι ε β} {p : Program σ κ ω ι ε α}
    (h : p.Passes M C g (after M C k K)) : (p >>= k).Passes M C g K :=
  handle (h.mono fun r g hr => by cases r <;> exact hr)

/-- A transaction whose body passes. -/
theorem transaction {body : Program σ κ ω ι ε α}
    (h : body.Passes M C g fun r g => M.allows g .over ∧ K r (M.next g .over) ∧
      ∀ e, C e → K (.error e) (M.next g .over)) :
    (Program.transaction body).Passes M C g K := by
  refine handle (h.mono fun r g hr => ?_)
  cases r with
  | error e => exact ⟨hr.1, hr.2.1⟩
  | ok a =>
    refine ⟨hr.1, fun r' hr' => ?_⟩
    cases r' with
    | ok u => exact hr.2.1
    | error e => exact hr.2.2 e (hr' e rfl)

theorem ensure {condition : Bool} {e : ε} {K : Except ε Unit → γ → Prop}
    (hok : K (.ok ()) g) (herror : K (.error e) g) :
    (Program.ensure condition e : Program σ κ ω ι ε Unit).Passes M C g K := by
  unfold Program.ensure
  cases condition with
  | true => exact hok
  | false => exact herror

/-- `SELECT … FOR UPDATE` of at most one row, whose key is known. -/
theorem selectForLock {mode : LockMode} {key : α → κ} {view : σ → Option α} (k₀ : κ)
    {K : Except ε (Option α) → γ → Prop} (hkey : ∀ s row, view s = some row → key row = k₀)
    (hallows : M.allows g (.lock k₀ mode)) (hnone : K (.ok none) g)
    (hsome : ∀ row, K (.ok row) (M.next g (.lock k₀ mode))) :
    (Program.selectForLock mode key view : Program σ κ ω ι ε (Option α)).Passes M C g K := by
  refine bind fun s => ?_
  simp only [Program.Passes, after]
  cases hrow : view s with
  | none => exact hnone
  | some row =>
    have hk : key row = k₀ := hkey s row hrow
    refine ⟨by rw [hk]; exact hallows, fun s' => ?_⟩
    rw [hk]
    exact hsome _

/-- The statements for each element of a list. -/
theorem forEach {body : β → Program σ κ ω ι ε Unit} {K : Except ε Unit → γ → Prop}
    (I : List β → γ → Prop) (before : List β) {rest : List β} : ∀ {g : γ}, I before g →
    (∀ done b after, before ++ rest = done ++ b :: after → ∀ g, I done g →
      (body b).Passes M C g fun r g => match r with
        | .ok () => I (done ++ [b]) g
        | .error e => K (.error e) g) →
    (∀ g, I (before ++ rest) g → K (.ok ()) g) →
    (Program.forEach body rest).Passes M C g K := by
  induction rest generalizing before with
  | nil => exact fun hI _ hend => hend _ (by simpa using hI)
  | cons b rest ih =>
    intro g hI hstep hend
    refine bind (mono (fun r g hr => ?_) (hstep before b rest rfl g hI))
    cases r with
    | error e => exact hr
    | ok _ =>
      have hassoc : before ++ [b] ++ rest = before ++ b :: rest := by simp
      refine ih (before ++ [b]) hr (fun done b' after hsplit => ?_) fun g h => ?_
      · exact hstep done b' after (hassoc ▸ hsplit)
      · exact hend g (hassoc ▸ h)

/-- A part of a transaction of which the monitor notes nothing down. -/
theorem of_within {P Q : ω → Prop} (hlock : ∀ g key mode, M.allows g (.lock key mode) ∧
      M.next g (.lock key mode) = g)
    (hwrite : ∀ g row, P row → M.allows g (.write row) ∧ M.next g (.write row) = g)
    (hdraw : ∀ g row, Q row → M.allows g (.draw row) ∧ M.next g (.draw row) = g)
    {p : Program σ κ ω ι ε α} (h : p.Within P Q) : p.Passes M C g fun _ g' => g' = g := by
  induction p with
  | done r => rfl
  | input next ih => exact fun x => ih x (h x)
  | query next ih => exact fun s => ih s (h s)
  | lock key mode next ih =>
    refine ⟨(hlock g key mode).1, fun s => ?_⟩
    rw [(hlock g key mode).2]
    exact ih s (h s)
  | write row next ih =>
    refine ⟨(hwrite g row h.1).1, ?_⟩
    rw [(hwrite g row h.1).2]
    exact ih h.2
  | instant row next ih =>
    refine ⟨(hdraw g row h.1).1, fun s => ?_⟩
    rw [(hdraw g row h.1).2]
    exact ih s (h.2 s)
  | commit next _ => exact absurd h id
  | rollback next _ => exact absurd h id

end Passes

end Program

/-! ## What a monitor adds to a precondition -/

/-- The notes of a monitor are true of where the session stands. -/
structure Monitor.Tracks (M : Monitor κ ω γ) (track : Standing σ κ ω → γ → Prop) : Prop where
  saw : ∀ {f g} v, track f g → track (f.saw v) g
  locked : ∀ {f g} key mode v, track f g →
    track (f.locked key mode v) (M.next g (.lock key mode))
  wrote : ∀ {f g} row, track f g → track (f.wrote row) (M.next g (.write row))
  drew : ∀ {f g} row, track f g → track f (M.next g (.draw row))
  ended : ∀ {f g}, track f g → track f.ended (M.next g .over)

section
variable {D : Database σ ω ε} {R : Discipline σ κ ω} {T T' : Terms σ κ ω}
variable {M : Monitor κ ω γ} {C : ε → Prop} {track : Standing σ κ ω → γ → Prop}
variable {Q : Post σ κ ω ε α} {K : Except ε α → γ → Prop}

/-- A program that passes, on terms that say more about its waits: what the monitor allows is true
of them, and its notes are true in the end. -/
theorem wp_passes (hM : M.Tracks track) (hdeferred : ∀ s rows e, D.deferred s rows = .error e → C e)
    (hcommits : ∀ s rows, T.commits s rows → T'.commits s rows)
    (hdraws : ∀ s row, T.draws s row → T'.draws s row)
    (hguard : ∀ f k s g, T.guard f k s → track f g → M.allows g (.lock k.1 k.2) → T'.guard f k s)
    (hadmits : ∀ f st s, T'.admits f st s → T.admits f st s) {p : Program σ κ ω ι ε α} :
    ∀ {f s g}, wp D R T p f s Q → p.Passes M C g K → track f g →
      wp D R T' p f s fun r f s => Q r f s ∧ ∃ g, track f g ∧ K r g := by
  induction p with
  | done r => exact fun hp hm ht => ⟨hp, _, ht, hm⟩
  | input next ih => exact fun hp hm ht x => ih x (hp x) (hm x) ht
  | query next ih => exact fun hp hm ht s' h => ih _ (hp s' h) (hm _) (hM.saw _ ht)
  | lock key mode next ih =>
    exact fun hp hm ht s' h => ⟨hguard _ _ _ _ (hp s' h).1 ht hm.1,
      fun ha => ih _ ((hp s' h).2 (hadmits _ _ _ ha)) (hm.2 _) (hM.locked _ _ _ ht)⟩
  | write row next ih =>
    exact fun hp hm ht => ⟨hp.1, fun s' h htidy =>
      ⟨(hp.2 s' h htidy).1, ih (hp.2 s' h htidy).2 hm.2 (hM.wrote _ ht)⟩⟩
  | instant row next ih =>
    exact fun hp hm ht s' h => ⟨hdraws _ _ (hp s' h).1, ih _ (hp s' h).2 (hm.2 _) (hM.drew _ ht)⟩
  | commit next ih =>
    intro f s g hp hm ht s' h ha
    have hchoice := hp s' h (hadmits _ _ _ ha)
    have hended := hM.ended ht
    refine ⟨fun ho => ⟨hcommits _ _ (hchoice.1 ho).1, ih _ (hchoice.1 ho).2 (hm.2 _ ?_) hended⟩,
      fun e he => ih _ (hchoice.2 e he) (hm.2 _ ?_) hended⟩
    · rintro e ⟨⟩
    · rintro e' ⟨⟩
      exact hdeferred _ _ _ he
  | rollback next ih => exact fun hp hm ht s' h => ih (hp s' h) hm.2 (hM.ended ht)

end

/-! ## Two monitors -/

/-- Knows the locks that are held, and allows a lock or does not. -/
def lockMonitor (allowed : List (κ × LockMode) → κ → Prop) :
    Monitor κ ω (List (κ × LockMode)) where
  allows held
    | .lock key _ => allowed held key
    | _ => True
  next held
    | .lock key mode => (key, mode) :: held
    | .over => []
    | _ => held

theorem lockMonitor_tracks (allowed : List (κ × LockMode) → κ → Prop) :
    (lockMonitor allowed : Monitor κ ω _).Tracks
      fun (f : Standing σ κ ω) held => f.held = held where
  saw _ h := h
  locked _ _ _ h := congrArg _ h
  wrote _ h := h
  drew _ h := h
  ended _ := rfl

/-- Notes down what the writes of a transaction come to, and allows everything. -/
def writeMonitor (note : ω → List β) : Monitor κ ω (List β) where
  allows _ _ := True
  next noted
    | .write row => noted ++ note row
    | .over => []
    | _ => noted

theorem writeMonitor_tracks (note : ω → List β) :
    (writeMonitor note : Monitor κ ω _).Tracks
      fun (f : Standing σ κ ω) noted => f.pending.flatMap note = noted where
  saw _ h := h
  locked _ _ _ h := h
  wrote {f noted} row h := by
    change (f.pending ++ [row]).flatMap note = noted ++ note row
    rw [List.flatMap_append, h, List.flatMap_singleton]
  drew _ h := h
  ended _ := rfl

section
variable {D : Database σ ω ε} {R : Discipline σ κ ω} {T T' : Terms σ κ ω}
variable {C : ε → Prop} {Q : Post σ κ ω ε α} {p : Program σ κ ω ι ε α}
variable {f : Standing σ κ ω} {s : σ}

/-- The same program on terms that also say, of every wait, what the monitor of the locks allows. -/
theorem wp_locks {allowed : List (κ × LockMode) → κ → Prop}
    {K : Except ε α → List (κ × LockMode) → Prop}
    (hdeferred : ∀ s rows e, D.deferred s rows = .error e → C e)
    (hcommits : ∀ s rows, T.commits s rows → T'.commits s rows)
    (hdraws : ∀ s row, T.draws s row → T'.draws s row)
    (hguard : ∀ f k s, T.guard f k s → allowed f.held k.1 → T'.guard f k s)
    (hadmits : ∀ f st s, T'.admits f st s → T.admits f st s) (hp : wp D R T p f s Q)
    (hlocks : p.Passes (lockMonitor allowed) C f.held K) :
    wp D R T' p f s fun r f s => Q r f s ∧ K r f.held := by
  refine wp_mono (fun r f s h => ?_) (wp_passes (lockMonitor_tracks allowed) hdeferred hcommits
    hdraws (fun f k s held h htrack hallowed => ?_) hadmits hp hlocks rfl)
  · obtain ⟨hQ, held, rfl, hK⟩ := h
    exact ⟨hQ, hK⟩
  · subst htrack
    exact hguard f k s h hallowed

/-- What the writes of a program come to, as the monitor of the writes has noted it down. -/
theorem wp_writes {note : ω → List β} {K : Except ε α → List β → Prop} (hp : wp D R T p f s Q)
    (hwrites : p.Passes (writeMonitor note) (fun _ => True) (f.pending.flatMap note) K) :
    wp D R T p f s fun r f s => Q r f s ∧ K r (f.pending.flatMap note) := by
  refine wp_mono (fun r f s h => ?_) (wp_passes (writeMonitor_tracks note) (fun _ _ _ _ => trivial)
    (fun _ _ h => h) (fun _ _ h => h) (fun _ _ _ _ h _ _ => h) (fun _ _ _ h => h) hp hwrites rfl)
  obtain ⟨hQ, noted, rfl, hK⟩ := h
  exact ⟨hQ, hK⟩

end

end Transactions
