import Mathlib.Tactic

/-!
# Tables as lists of rows with a key

* `lookup` — the row with a key; `modify` — the row with a key changed;
* lookups after an insertion, after a change of the same row and of another one;
* `sum_modify` — a sum over the rows after one of them changed.
-/

namespace Relational

variable {ρ κ β : Type} [DecidableEq κ]

/-- The first row with the given key. -/
def lookup (key : ρ → κ) (rows : List ρ) (k : κ) : Option ρ :=
  rows.find? fun r => decide (key r = k)

/-- Change every row with the given key. -/
def modify (key : ρ → κ) (rows : List ρ) (k : κ) (g : ρ → ρ) : List ρ :=
  rows.map fun r => if key r = k then g r else r

section
variable {key : ρ → κ} {rows : List ρ} {k : κ} {r : ρ}

/-! ## Lookups -/

/-- A row that is found is in the table. -/
theorem lookup_mem (h : lookup key rows k = some r) : r ∈ rows :=
  List.mem_of_find?_eq_some h

/-- A row that is found has the key. -/
theorem lookup_key (h : lookup key rows k = some r) : key r = k := by
  simpa using List.find?_some h

/-- No row is found if and only if none has the key. -/
theorem lookup_eq_none : lookup key rows k = none ↔ ∀ r ∈ rows, key r ≠ k := by
  simp [lookup]

/-- With distinct keys every row is found by its own. -/
theorem lookup_of_mem (hnodup : (rows.map key).Nodup) (hr : r ∈ rows) :
    lookup key rows (key r) = some r := by
  induction rows with
  | nil => cases hr
  | cons a rows ih =>
    rw [List.map_cons, List.nodup_cons] at hnodup
    unfold lookup at ih ⊢
    rcases List.mem_cons.1 hr with rfl | hr'
    · simp
    · have hne : key a ≠ key r := fun h => hnodup.1 (h ▸ List.mem_map_of_mem hr')
      rw [List.find?_cons_of_neg (by simpa using hne)]
      exact ih hnodup.2 hr'

/-- In a table with distinct keys, a key names one row. -/
theorem eq_of_key (hnodup : (rows.map key).Nodup) {r' : ρ} (hr : r ∈ rows) (hr' : r' ∈ rows)
    (h : key r = key r') : r = r' := by
  have hr₁ := lookup_of_mem hnodup hr
  rw [h, lookup_of_mem hnodup hr'] at hr₁
  exact (Option.some.inj hr₁).symm

/-- The rows of the first table come first. -/
theorem lookup_append (rows rows' : List ρ) (k : κ) :
    lookup key (rows ++ rows') k = (lookup key rows k).or (lookup key rows' k) :=
  List.find?_append

/-- A row that is found is found in a longer table. -/
theorem lookup_append_of_some (h : lookup key rows k = some r) (rows' : List ρ) :
    lookup key (rows ++ rows') k = some r := by
  rw [lookup_append, h, Option.some_or]

/-- A new row with another key is not in the way. -/
theorem lookup_append_ne {a : ρ} (h : key a ≠ k) :
    lookup key (rows ++ [a]) k = lookup key rows k := by
  rw [lookup_append]
  simp [lookup, h]

/-- A new row is found by its key, if that was free. -/
theorem lookup_append_new {a : ρ} (h : lookup key rows (key a) = none) :
    lookup key (rows ++ [a]) (key a) = some a := by
  rw [lookup_append, h]
  simp [lookup]

/-- A lookup in a table that has grown by one row. -/
theorem lookup_append_cases {a : ρ} (h : lookup key (rows ++ [a]) k = some r) :
    lookup key rows k = some r ∨ (lookup key rows k = none ∧ r = a ∧ key a = k) := by
  rw [lookup_append] at h
  cases hold : lookup key rows k with
  | some r' =>
    rw [hold] at h
    exact .inl h
  | none =>
    rw [hold, Option.none_or] at h
    have hr : r = a := by simpa using lookup_mem h
    exact .inr ⟨rfl, hr, hr ▸ lookup_key h⟩

/-- A row with a key of its own leaves the keys distinct. -/
theorem nodup_insert (hnodup : (rows.map key).Nodup) {a : ρ}
    (hnew : lookup key rows (key a) = none) : ((rows ++ [a]).map key).Nodup := by
  rw [List.map_append]
  refine List.nodup_append.2 ⟨hnodup, List.nodup_singleton _, fun x hx y hy hxy => ?_⟩
  obtain ⟨r, hr, rfl⟩ := List.mem_map.1 hx
  exact lookup_eq_none.1 hnew r hr (by simpa [hxy] using hy)

/-! ## Changes -/

/-- A change of a row that keeps its key keeps all keys. -/
@[simp] theorem map_key_modify {g : ρ → ρ} (hg : ∀ r, key (g r) = key r) :
    (modify key rows k g).map key = rows.map key := by
  unfold modify
  rw [List.map_map]
  refine List.map_congr_left fun r _ => ?_
  simp only [Function.comp_apply]
  split
  · exact hg r
  · rfl

/-- A column that the change leaves alone. -/
theorem map_modify {f : ρ → β} {g : ρ → ρ} (hg : ∀ r, f (g r) = f r) :
    (modify key rows k g).map f = rows.map f := by
  unfold modify
  rw [List.map_map]
  refine List.map_congr_left fun r _ => ?_
  simp only [Function.comp_apply]
  split
  · exact hg r
  · rfl

/-- A row that is changed is found changed, the others are found as they were. -/
theorem lookup_modify {g : ρ → ρ} (hg : ∀ r, key (g r) = key r) (k' : κ) :
    lookup key (modify key rows k g) k' =
      if k' = k then (lookup key rows k').map g else lookup key rows k' := by
  induction rows with
  | nil => simp [lookup, modify]
  | cons a rows ih =>
    unfold lookup modify at ih ⊢
    rw [List.map_cons]
    by_cases ha : key a = k'
    · rw [List.find?_cons_of_pos (by split <;> simp [hg, ha]),
        List.find?_cons_of_pos (by simp [ha])]
      by_cases hk : k' = k
      · rw [if_pos hk, if_pos (ha.trans hk)]
        rfl
      · rw [if_neg hk, if_neg fun h => hk (ha.symm.trans h)]
    · rw [List.find?_cons_of_neg (by split <;> simp [hg, ha]),
        List.find?_cons_of_neg (by simp [ha])]
      exact ih

theorem lookup_modify_self {g : ρ → ρ} (hg : ∀ r, key (g r) = key r)
    (h : lookup key rows k = some r) :
    lookup key (modify key rows k g) k = some (g r) := by
  rw [lookup_modify hg, if_pos rfl, h]
  rfl

theorem lookup_modify_ne {g : ρ → ρ} (hg : ∀ r, key (g r) = key r) {k' : κ} (h : k' ≠ k) :
    lookup key (modify key rows k g) k' = lookup key rows k' := by
  rw [lookup_modify hg, if_neg h]

/-- A row of the changed table is a changed one or an old one. -/
theorem mem_modify {g : ρ → ρ} (h : r ∈ modify key rows k g) :
    ∃ r' ∈ rows, (key r' = k ∧ r = g r') ∨ (key r' ≠ k ∧ r = r') := by
  obtain ⟨r', hr', rfl⟩ := List.mem_map.1 h
  refine ⟨r', hr', ?_⟩
  by_cases hk : key r' = k
  · exact .inl ⟨hk, if_pos hk⟩
  · exact .inr ⟨hk, if_neg hk⟩

/-- Nothing changes when no row has the key. -/
theorem modify_absent {g : ρ → ρ} (h : ∀ r ∈ rows, key r ≠ k) : modify key rows k g = rows := by
  unfold modify
  conv_rhs => rw [← List.map_id rows]
  exact List.map_congr_left fun r hr => if_neg (h r hr)

/-- A sum over the rows after the one with key `k` has changed. -/
theorem sum_modify {f : ρ → ℤ} {g : ρ → ρ} (hnodup : (rows.map key).Nodup)
    (h : lookup key rows k = some r) :
    ((modify key rows k g).map f).sum = (rows.map f).sum - f r + f (g r) := by
  induction rows with
  | nil => simp [lookup] at h
  | cons a rows ih =>
    rw [List.map_cons, List.nodup_cons] at hnodup
    by_cases ha : key a = k
    · have har : a = r := by simpa [lookup, ha] using h
      have habsent : ∀ r ∈ rows, key r ≠ k := fun r' hr' hkey =>
        hnodup.1 (List.mem_map.2 ⟨r', hr', hkey.trans ha.symm⟩)
      have hrest : modify key rows k g = rows := modify_absent habsent
      unfold modify at hrest ⊢
      rw [List.map_cons, hrest, if_pos ha, har]
      simp only [List.map_cons, List.sum_cons]
      ring
    · have hrest : lookup key rows k = some r := by
        unfold lookup at h ⊢
        rwa [List.find?_cons_of_neg (by simpa using ha)] at h
      have hsum := ih hnodup.2 hrest
      unfold modify at hsum ⊢
      rw [List.map_cons, if_neg ha, List.map_cons, List.sum_cons, hsum, List.map_cons,
        List.sum_cons]
      ring

omit [DecidableEq κ] in
/-- Rows that are looked up again, some of them gone. -/
theorem map_filterMap_sublist {g : ρ → Option ρ} (hg : ∀ {r r'}, g r = some r' → key r' = key r) :
    ((rows.filterMap g).map key).Sublist (rows.map key) := by
  induction rows with
  | nil => exact List.Sublist.refl _
  | cons a rows ih =>
    rw [List.filterMap_cons, List.map_cons]
    cases ha : g a with
    | none => exact ih.cons _
    | some a' =>
      rw [List.map_cons, hg ha]
      exact ih.cons_cons _

/-! ## Tests over the rows -/

/-- A test that the change does not affect. -/
theorem any_modify {p : ρ → Bool} {g : ρ → ρ} (hp : ∀ r, p (g r) = p r) :
    (modify key rows k g).any p = rows.any p := by
  unfold modify
  rw [List.any_map]
  refine congrArg (rows.any ·) (funext fun r => ?_)
  simp only [Function.comp_apply]
  split
  · exact hp r
  · rfl

/-- A column of the rows that pass a test, when the change affects neither. -/
theorem map_filter_modify {p : ρ → Bool} {f : ρ → β} {g : ρ → ρ} (hp : ∀ r, p (g r) = p r)
    (hf : ∀ r, f (g r) = f r) :
    ((modify key rows k g).filter p).map f = (rows.filter p).map f := by
  unfold modify
  induction rows with
  | nil => rfl
  | cons a rows ih =>
    have hpa : p (if key a = k then g a else a) = p a := by
      split
      · exact hp a
      · rfl
    have hfa : f (if key a = k then g a else a) = f a := by
      split
      · exact hf a
      · rfl
    rw [List.map_cons, List.filter_cons, List.filter_cons, hpa]
    split
    · rw [List.map_cons, List.map_cons, hfa, ih]
    · exact ih

/-- The rows that pass a test that the change does not affect. -/
theorem filter_modify {p : ρ → Bool} {g : ρ → ρ} (hp : ∀ r, p (g r) = p r) :
    (modify key rows k g).filter p = modify key (rows.filter p) k g := by
  unfold modify
  rw [List.filter_map]
  refine congrArg (List.map _) (List.filter_congr fun r _ => ?_)
  simp only [Function.comp_apply]
  split
  · exact hp r
  · rfl

end

end Relational
