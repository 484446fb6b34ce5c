import Mathlib.Tactic

/-!
# Positions handed out in blocks, behind a stamp

Numbered positions are drawn one after the other, each on the next number above every stamp given
out so far.  The stamp of a draw comes from elsewhere and may skip numbers, so positions may stay
unused; blocks of positions are reserved as the numbers reach them.

* `Book` — the blocks reserved and the positions drawn; `Book.top` — the highest stamp;
* `Book.Step` — a block is reserved, or a position is drawn; `Book.Leads` — any number of steps;
* `Book.Sound` — blocks do not overlap, and stamps and positions rise together;
* `Book.Leads.steady`, `Book.Leads.gap` — what is left of a look at the book some steps ago.
-/

namespace Allotment

/-- Of two elements of a list, one comes first. -/
theorem one_before_other {α : Type} {R : α → α → Prop} {l : List α} (h : l.Pairwise R) {a b : α}
    (ha : a ∈ l) (hb : b ∈ l) (hne : a ≠ b) : R a b ∨ R b a := by
  have hsymm : Std.Symm fun c d => R c d ∨ R d c := ⟨fun _ _ h => h.symm⟩
  have hboth : l.Pairwise fun c d => R c d ∨ R d c := h.imp Or.inl
  exact hboth.forall ha hb hne

/-- A range of positions. -/
structure Block where
  first : ℕ
  length : ℕ

/-- The positions of a block. -/
def Block.Covers (c : Block) (p : ℕ) : Prop := c.first ≤ p ∧ p < c.first + c.length

/-- A position that was drawn, with the stamp given to it. -/
structure Draw where
  stamp : ℕ
  position : ℕ

/-- The blocks and the draws, oldest first. -/
structure Book where
  blocks : List Block := []
  draws : List Draw := []

namespace Book

/-- The highest stamp, zero before the first draw. -/
def top (b : Book) : ℕ := (b.draws.map Draw.stamp).foldl max 0

/-- Some block has this position. -/
def Covers (b : Book) (p : ℕ) : Prop := ∃ c ∈ b.blocks, c.Covers p

/-- This position was drawn. -/
def Taken (b : Book) (p : ℕ) : Prop := ∃ d ∈ b.draws, d.position = p

/-- One more block. -/
def reserve (b : Book) (length : ℕ) : Book :=
  { b with blocks := b.blocks ++ [⟨b.top + 1, length⟩] }

/-- One more draw. -/
def draw (b : Book) (stamp : ℕ) : Book :=
  { b with draws := b.draws ++ [⟨stamp, b.top + 1⟩] }

/-- A block is reserved where none covers the next position, or the next position is drawn. -/
inductive Step (b : Book) : Book → Prop
  | reserve (length : ℕ) (filled : 0 < length) (gap : ¬b.Covers (b.top + 1)) :
      Step b (b.reserve length)
  | draw (stamp : ℕ) (ahead : b.top < stamp) (covered : b.Covers (b.top + 1)) :
      Step b (b.draw stamp)

/-- Any number of steps. -/
def Leads : Book → Book → Prop := Relation.ReflTransGen Step

/-- The invariant of the book. -/
structure Sound (b : Book) : Prop where
  filled : ∀ c ∈ b.blocks, 0 < c.length
  apart : b.blocks.Pairwise fun c d => c.first + c.length ≤ d.first
  begun : ∀ c ∈ b.blocks, 1 ≤ c.first ∧ c.first ≤ b.top + 1
  rising : b.draws.Pairwise fun d e => d.stamp < e.position
  behind : ∀ d ∈ b.draws, 1 ≤ d.position ∧ d.position ≤ d.stamp
  covered : ∀ d ∈ b.draws, b.Covers d.position

section
variable {b b' b'' : Book}

/-! ## Stamps -/

@[simp] theorem top_reserve (length : ℕ) : (b.reserve length).top = b.top := rfl

@[simp] theorem top_draw (stamp : ℕ) : (b.draw stamp).top = max b.top stamp := by
  simp [top, draw, List.foldl_append]

/-- No draw has a stamp above the last one. -/
theorem stamp_le_top {d : Draw} (hd : d ∈ b.draws) : d.stamp ≤ b.top := by
  have hmono : ∀ (l : List ℕ) (a n : ℕ), n ≤ a ∨ n ∈ l → n ≤ l.foldl max a := by
    intro l
    induction l with
    | nil => simp
    | cons x l ih =>
      intro a n hn
      refine ih (max a x) n ?_
      rcases hn with hn | hn
      · exact .inl (hn.trans (le_max_left _ _))
      · rcases List.mem_cons.1 hn with rfl | hn
        · exact .inl (le_max_right _ _)
        · exact .inr hn
  exact hmono _ 0 _ (.inr (List.mem_map_of_mem hd))

/-! ## One step -/

/-- A block beyond the last stamp may be reserved, when none covers the next one. -/
theorem Sound.reserve (hb : b.Sound) {length : ℕ} (filled : 0 < length)
    (gap : ¬b.Covers (b.top + 1)) : (b.reserve length).Sound where
  filled c hc := by
    rcases List.mem_append.1 hc with hc | hc
    · exact hb.filled c hc
    · obtain rfl := List.mem_singleton.1 hc
      exact filled
  apart := by
    refine List.pairwise_append.2 ⟨hb.apart, List.pairwise_singleton _ _, fun c hc d hd => ?_⟩
    -- an older block has begun by now, and does not reach the next position
    obtain rfl := List.mem_singleton.1 hd
    by_contra hlong
    have hbegun := (hb.begun c hc).2
    simp only at hlong
    exact gap ⟨c, hc, hbegun, by omega⟩
  begun c hc := by
    rcases List.mem_append.1 hc with hc | hc
    · exact hb.begun c hc
    · obtain rfl := List.mem_singleton.1 hc
      simp
  rising := hb.rising
  behind := hb.behind
  covered d hd := by
    obtain ⟨c, hc, hcovers⟩ := hb.covered d hd
    exact ⟨c, List.mem_append_left _ hc, hcovers⟩

/-- A draw may skip stamps, as its position is the next one. -/
theorem Sound.draw (hb : b.Sound) {stamp : ℕ} (ahead : b.top < stamp)
    (covered : b.Covers (b.top + 1)) : (b.draw stamp).Sound where
  filled := hb.filled
  apart := hb.apart
  begun c hc := by
    have hbegun := hb.begun c hc
    rw [top_draw]
    omega
  rising := by
    refine List.pairwise_append.2 ⟨hb.rising, List.pairwise_singleton _ _, fun d hd e he => ?_⟩
    obtain rfl := List.mem_singleton.1 he
    exact Nat.lt_succ_of_le (stamp_le_top hd)
  behind d hd := by
    rcases List.mem_append.1 hd with hd | hd
    · exact hb.behind d hd
    · obtain rfl := List.mem_singleton.1 hd
      exact ⟨Nat.le_add_left _ _, ahead⟩
  covered d hd := by
    rcases List.mem_append.1 hd with hd | hd
    · exact hb.covered d hd
    · obtain rfl := List.mem_singleton.1 hd
      exact covered

/-- Every step keeps the book sound. -/
theorem Step.sound (h : b.Step b') (hb : b.Sound) : b'.Sound := by
  cases h with
  | reserve length filled gap => exact hb.reserve filled gap
  | draw stamp ahead covered => exact hb.draw ahead covered

/-- The last stamp never goes down. -/
theorem Step.top_le (h : b.Step b') : b.top ≤ b'.top := by
  cases h with
  | reserve length _ _ => exact le_rfl
  | draw stamp _ _ => simp

/-- A position that has been taken stays taken. -/
theorem Step.taken (h : b.Step b') {p : ℕ} (hp : b.Taken p) : b'.Taken p := by
  obtain ⟨d, hd, hposition⟩ := hp
  cases h with
  | reserve length _ _ => exact ⟨d, hd, hposition⟩
  | draw stamp _ _ => exact ⟨d, List.mem_append_left _ hd, hposition⟩

/-- The stamps rise only when the next position is drawn. -/
theorem Step.taken_next (h : b.Step b') (htop : b.top < b'.top) : b'.Taken (b.top + 1) := by
  cases h with
  | reserve length _ _ => exact absurd htop (lt_irrefl _)
  | draw stamp _ _ => exact ⟨_, List.mem_append_right _ List.mem_cons_self, rfl⟩

/-- A new block begins above every stamp. -/
theorem Step.block (h : b.Step b') {c : Block} (hc : c ∈ b'.blocks) :
    c ∈ b.blocks ∨ b.top < c.first := by
  cases h with
  | reserve length _ _ =>
    rcases List.mem_append.1 hc with hc | hc
    · exact .inl hc
    · exact .inr (List.mem_singleton.1 hc ▸ Nat.lt_succ_self _)
  | draw stamp _ _ => exact .inl hc

/-! ## Any number of steps -/

/-- A book leads to itself. -/
theorem Leads.refl (b : Book) : b.Leads b := Relation.ReflTransGen.refl

/-- Two runs one after the other are a run. -/
theorem Leads.trans (h : b.Leads b') (h' : b'.Leads b'') : b.Leads b'' :=
  Relation.ReflTransGen.trans h h'

/-- One step is a run. -/
theorem Step.leads (h : b.Step b') : b.Leads b' := Relation.ReflTransGen.single h

/-- The last stamp never goes down along a run. -/
theorem Leads.top_le (h : b.Leads b') : b.top ≤ b'.top := by
  induction h with
  | refl => exact le_rfl
  | tail _ hstep ih => exact ih.trans hstep.top_le

/-- A block is old, or was reserved beyond the last stamp. -/
theorem Leads.block (h : b.Leads b') {c : Block} (hc : c ∈ b'.blocks) :
    c ∈ b.blocks ∨ b.top < c.first := by
  induction h with
  | refl => exact .inl hc
  | tail hleads hstep ih =>
    rcases hstep.block hc with hc | hc
    · exact ih hc
    · exact .inr ((Leads.top_le hleads).trans_lt hc)

/-- When the last stamp has gone up, the position after the old one is taken. -/
theorem Leads.taken_next (h : b.Leads b') (htop : b.top < b'.top) : b'.Taken (b.top + 1) := by
  induction h with
  | refl => exact absurd htop (lt_irrefl _)
  | @tail b₁ b₂ hleads hstep ih =>
    by_cases hfirst : b.top < b₁.top
    · exact hstep.taken (ih hfirst)
    · have hsame : b₁.top = b.top := le_antisymm (not_lt.1 hfirst) (Leads.top_le hleads)
      rw [← hsame] at htop ⊢
      exact hstep.taken_next htop

/-- As long as the next position is not drawn, the stamps stay as they were. -/
theorem Leads.steady (h : b.Leads b') (hfree : ¬b'.Taken (b.top + 1)) : b'.top = b.top :=
  le_antisymm (not_lt.1 fun htop => hfree (h.taken_next htop)) h.top_le

/-- The next position `b.top + 1` was looked up later, in `b'`, and no block covered it.  As
long as no block begins there, the stamps stay as they were and none covers it. -/
theorem Leads.gap (h : b.Leads b') (h' : b'.Leads b'') (hsound : b''.Sound)
    (hgap : ¬b'.Covers (b.top + 1)) (hfree : ∀ c ∈ b''.blocks, c.first ≠ b.top + 1) :
    b''.top = b.top ∧ ¬b''.Covers (b.top + 1) := by
  have hnone : ¬b''.Covers (b.top + 1) := by
    rintro ⟨c, hc, hfirst, hlast⟩
    rcases h'.block hc with hold | hnew
    · exact hgap ⟨c, hold, hfirst, hlast⟩
    · -- a block reserved since the look begins above every stamp of then
      have htop := h.top_le
      have hne := hfree c hc
      omega
  refine ⟨(h.trans h').steady fun htaken => ?_, hnone⟩
  obtain ⟨d, hd, hposition⟩ := htaken
  exact hnone (hposition ▸ hsound.covered d hd)

/-! ## What a sound book promises -/

/-- Stamps and positions rise together. -/
theorem Sound.sorted (hb : b.Sound) :
    b.draws.Pairwise fun d e => d.stamp < e.stamp ∧ d.position < e.position := by
  refine hb.rising.imp_of_mem fun {d e} hd he hrising => ⟨?_, ?_⟩
  · exact hrising.trans_le (hb.behind e he).2
  · exact (hb.behind d hd).2.trans_lt hrising

/-- A higher stamp goes with a higher position. -/
theorem Sound.position_lt (hb : b.Sound) {d e : Draw} (hd : d ∈ b.draws) (he : e ∈ b.draws)
    (hstamp : d.stamp < e.stamp) : d.position < e.position := by
  have hne : d ≠ e := by
    rintro rfl
    exact lt_irrefl _ hstamp
  obtain ⟨-, hlt⟩ | ⟨hback, -⟩ := one_before_other hb.sorted hd he hne
  · exact hlt
  · exact absurd hback hstamp.asymm

end

/-- The empty book is sound. -/
theorem sound_empty : ({} : Book).Sound :=
  ⟨List.forall_mem_nil _, .nil, List.forall_mem_nil _, .nil, List.forall_mem_nil _,
    List.forall_mem_nil _⟩

end Book

end Allotment
