import Mathlib.Algebra.BigOperators.Group.List.Basic
import Mathlib.Data.Set.Finite.Lemmas
import Mathlib.Data.Set.Insert
import Mathlib.Order.Defs.LinearOrder
import Mathlib.Tactic.Abel

/-!
# The last writer of a key

The records of a log stand at totally ordered positions and set keys or delete them. An
index reflects the log if it maps every key to the newest record of the key, unless that
record deletes it.

## Main definitions

* `LastWriter.View` — how records are read
* `LastWriter.Reflects` — the index reflects the log
* `LastWriter.Newest` — no record of its key stands behind the record
* `LastWriter.dead` — how much of a list of records the index does not point at

## Main results

* `Reflects.unique` — only one index reflects a log
* `Reflects.insert` — a new record at the end
* `Reflects.subset` — records dropped from the log
* `Reflects.of_newest` — an index that is right about the newest record of every key
* `dead_repoint` — an index entry moves away from a record
-/

namespace LastWriter

/-- How the records of a log are read. -/
structure View (ρ κ τ ι : Type*) where
  pos : ρ → τ
  key : ρ → κ
  /-- The record sets its key, and does not delete it. -/
  sets : ρ → Prop
  /-- What an index keeps about the record. -/
  entry : ρ → ι

variable {ρ κ τ ι : Type*} [LinearOrder τ] {v : View ρ κ τ ι} {R R' : Set ρ}
  {index index' : κ → Option ι} {r : ρ}

/-- The index maps each key to its newest record, unless that one deletes the key. -/
structure Reflects (v : View ρ κ τ ι) (R : Set ρ) (index : κ → Option ι) : Prop where
  live : ∀ k i, index k = some i → ∃ r ∈ R, v.key r = k ∧ v.sets r ∧ v.entry r = i ∧
    ∀ r' ∈ R, v.key r' = k → v.pos r' ≤ v.pos r
  dead : ∀ k, index k = none → ∀ r ∈ R, v.key r = k → v.sets r →
    ∃ r' ∈ R, v.key r' = k ∧ ¬ v.sets r' ∧ v.pos r < v.pos r'

/-- No record of its key stands behind the record. -/
def Newest (v : View ρ κ τ ι) (R : Set ρ) (r : ρ) : Prop :=
  r ∈ R ∧ ∀ r' ∈ R, v.key r' = v.key r → v.pos r' ≤ v.pos r

/-- Among finitely many records each key has a newest one. -/
theorem exists_newest (hfinite : R.Finite) (hr : r ∈ R) :
    ∃ r', Newest v R r' ∧ v.key r' = v.key r ∧ v.pos r ≤ v.pos r' := by
  have hkeys : {x ∈ R | v.key x = v.key r}.Finite := hfinite.subset (Set.sep_subset _ _)
  obtain ⟨r', ⟨hr', hkey⟩, hmax⟩ := Set.exists_max_image _ v.pos hkeys ⟨r, hr, rfl⟩
  exact ⟨r', ⟨hr', fun x hx hx' => hmax x ⟨hx, hx'.trans hkey⟩⟩, hkey, hmax r ⟨hr, rfl⟩⟩

namespace Reflects

theorem empty : Reflects v ∅ fun _ => none where
  live := by simp
  dead := by simp

/-- A key that an index has and another one lacks. -/
private theorem some_of_some {i : ι} {k : κ} (h : Reflects v R index) (h' : Reflects v R index')
    (hi : index k = some i) : ∃ i', index' k = some i' := by
  rcases hi' : index' k with _ | i'
  · obtain ⟨r, hr, hkey, hsets, -, hmax⟩ := h.live k i hi
    obtain ⟨r', hr', hkey', -, hlt⟩ := h'.dead k hi' r hr hkey hsets
    exact absurd hlt (not_lt_of_ge (hmax r' hr' hkey'))
  · exact ⟨i', rfl⟩

/-- Only one index reflects a log whose records stand at distinct positions. -/
theorem unique (hinj : ∀ r ∈ R, ∀ r' ∈ R, v.pos r = v.pos r' → r = r')
    (h : Reflects v R index) (h' : Reflects v R index') : index = index' := by
  funext k
  rcases hi : index k with _ | i
  · rcases hi' : index' k with _ | i'
    · rfl
    · obtain ⟨i, hi''⟩ := h'.some_of_some h hi'
      rw [hi] at hi''
      cases hi''
  · obtain ⟨i', hi'⟩ := h.some_of_some h' hi
    obtain ⟨r, hr, hkey, -, hentry, hmax⟩ := h.live k i hi
    obtain ⟨r', hr', hkey', -, hentry', hmax'⟩ := h'.live k i' hi'
    obtain rfl := hinj r hr r' hr' (le_antisymm (hmax' r hr hkey) (hmax r' hr' hkey'))
    rw [hi', ← hentry, ← hentry']

/-- A record behind all others decides about its key, and about no other one. -/
theorem insert (h : Reflects v R index) (hnew : ∀ r' ∈ R, v.pos r' < v.pos r)
    (hsets : v.sets r → index' (v.key r) = some (v.entry r))
    (hdeletes : ¬ v.sets r → index' (v.key r) = none)
    (hframe : ∀ k, k ≠ v.key r → index' k = index k) : Reflects v (insert r R) index' where
  live := by
    intro k i hi
    by_cases hk : k = v.key r
    · subst hk
      by_cases hr : v.sets r
      · -- The new record is the newest one of its key.
        obtain rfl := Option.some_inj.mp ((hsets hr).symm.trans hi)
        refine ⟨r, Set.mem_insert r R, rfl, hr, rfl, ?_⟩
        rintro r' (rfl | hr') -
        · exact le_rfl
        · exact (hnew r' hr').le
      · rw [hdeletes hr] at hi
        cases hi
    · -- The records of the other keys are the old ones.
      rw [hframe k hk] at hi
      obtain ⟨r', hr', hkey, hset, hentry, hmax⟩ := h.live k i hi
      refine ⟨r', Set.mem_insert_of_mem r hr', hkey, hset, hentry, ?_⟩
      rintro r'' (rfl | hr'') hkey'
      · exact absurd hkey'.symm hk
      · exact hmax r'' hr'' hkey'
  dead := by
    intro k hi r' hr' hkey hset
    by_cases hk : k = v.key r
    · subst hk
      by_cases hr : v.sets r
      · rw [hsets hr] at hi
        cases hi
      · -- An older record of the key is deleted by the new one.
        rcases hr' with rfl | hr'
        · exact absurd hset hr
        · exact ⟨r, Set.mem_insert r R, rfl, hr, hnew r' hr'⟩
    · rw [hframe k hk] at hi
      rcases hr' with rfl | hr'
      · exact absurd hkey.symm hk
      · obtain ⟨r'', hr'', hrest⟩ := h.dead k hi r' hr' hkey hset
        exact ⟨r'', Set.mem_insert_of_mem r hr'', hrest⟩

/-- Records may be dropped that no index entry stands for, if every record that sets an
absent key and stays is followed by one that deletes it and stays. -/
theorem subset (h : Reflects v R index) (hsub : R' ⊆ R)
    (hlive : ∀ r ∈ R, index (v.key r) = some (v.entry r) → r ∈ R')
    (hdead : ∀ r ∈ R', v.sets r → index (v.key r) = none →
      ∃ r' ∈ R', v.key r' = v.key r ∧ ¬ v.sets r' ∧ v.pos r < v.pos r') :
    Reflects v R' index where
  live := by
    intro k i hi
    obtain ⟨r, hr, rfl, hset, rfl, hmax⟩ := h.live k i hi
    exact ⟨r, hlive r hr hi, rfl, hset, rfl, fun r' hr' => hmax r' (hsub hr')⟩
  dead := by
    rintro k hi r hr rfl hset
    exact hdead r hr hset hi

/-- An index of finitely many records reflects them if it is right about the newest record of
every key, and has no key without a record. -/
theorem of_newest (hfinite : R.Finite) (hinj : ∀ r ∈ R, ∀ r' ∈ R, v.pos r = v.pos r' → r = r')
    (hsets : ∀ r, Newest v R r → v.sets r → index (v.key r) = some (v.entry r))
    (hdeletes : ∀ r, Newest v R r → ¬ v.sets r → index (v.key r) = none)
    (habsent : ∀ k, (∀ r ∈ R, v.key r ≠ k) → index k = none) : Reflects v R index where
  live := by
    intro k i hi
    -- The index has no key without records.
    have hsome : ∃ r ∈ R, v.key r = k := by
      by_contra hnone
      push Not at hnone
      rw [habsent k hnone] at hi
      cases hi
    obtain ⟨r, hr, rfl⟩ := hsome
    obtain ⟨r', hnewest, hkey, -⟩ := exists_newest (v := v) hfinite hr
    rw [← hkey] at hi
    by_cases hset : v.sets r'
    · rw [hsets r' hnewest hset, Option.some_inj] at hi
      exact ⟨r', hnewest.1, hkey, hset, hi, fun x hx hx' => hnewest.2 x hx (hx'.trans hkey.symm)⟩
    · rw [hdeletes r' hnewest hset] at hi
      cases hi
  dead := by
    intro k hk r hr hkey hset
    obtain ⟨r', hnewest, hkey', hle⟩ := exists_newest (v := v) hfinite hr
    rw [← hkey, ← hkey'] at hk
    have hdelete : ¬ v.sets r' := by
      intro hset'
      rw [hsets r' hnewest hset'] at hk
      cases hk
    -- Two records at one position are one record.
    refine ⟨r', hnewest.1, hkey'.trans hkey, hdelete, lt_of_le_of_ne hle fun heq => hdelete ?_⟩
    rwa [← hinj r hr r' hnewest.1 heq]

end Reflects

/-! ### Records that the index does not point at -/

section Dead

variable [DecidableEq ι] {size : ρ → ℕ} {rs rs' : List ρ} {k : κ}

omit [LinearOrder τ]

/-- The total size of the records that the index does not point at. -/
def dead (v : View ρ κ τ ι) (size : ρ → ℕ) (index : κ → Option ι) (rs : List ρ) : ℕ :=
  ((rs.filter fun r => index (v.key r) ≠ some (v.entry r)).map size).sum

@[simp] theorem dead_nil : dead v size index [] = 0 := rfl

theorem dead_cons : dead v size index (r :: rs) =
    (if index (v.key r) = some (v.entry r) then 0 else size r) + dead v size index rs := by
  unfold dead
  by_cases h : index (v.key r) = some (v.entry r) <;> simp [h]

theorem dead_append : dead v size index (rs ++ rs') =
    dead v size index rs + dead v size index rs' := by
  simp [dead]

/-- Some of the records are not more. -/
theorem dead_filter_le (p : ρ → Bool) : dead v size index (rs.filter p) ≤ dead v size index rs := by
  induction rs with
  | nil => exact le_rfl
  | cons r rs ih =>
    rw [dead_cons]
    cases hp : p r
    · rw [List.filter_cons_of_neg (by simp [hp])]
      exact ih.trans (Nat.le_add_left _ _)
    · rw [List.filter_cons_of_pos hp, dead_cons]
      exact Nat.add_le_add_left ih _

/-- If they are as much as all of them, the index points at the other ones. -/
theorem pointed_of_dead_filter {p : ρ → Bool} (hsize : ∀ r ∈ rs, 0 < size r)
    (heq : dead v size index (rs.filter p) = dead v size index rs) (hr : r ∈ rs)
    (hp : p r = false) : index (v.key r) = some (v.entry r) := by
  induction rs with
  | nil => cases hr
  | cons x rs ih =>
    have hrest : dead v size index (rs.filter p) ≤ dead v size index rs := dead_filter_le p
    have ih := ih fun y hy => hsize y (List.mem_cons_of_mem x hy)
    rw [dead_cons] at heq
    rcases List.mem_cons.mp hr with rfl | hr
    · rw [List.filter_cons_of_neg (by simp [hp])] at heq
      by_contra hdead
      have := hsize r List.mem_cons_self
      rw [if_neg hdead] at heq
      omega
    · cases hx : p x
      · rw [List.filter_cons_of_neg (by simp [hx])] at heq
        exact ih (by omega) hr
      · rw [List.filter_cons_of_pos hx, dead_cons, Nat.add_left_cancel_iff] at heq
        exact ih heq hr

variable [DecidableEq κ]

/-- The total size of the records that the index entry of `k` points at. -/
def pointed (v : View ρ κ τ ι) (size : ρ → ℕ) (index : κ → Option ι) (k : κ) (rs : List ρ) : ℕ :=
  ((rs.filter fun r => v.key r = k ∧ index k = some (v.entry r)).map size).sum

theorem pointed_cons : pointed v size index k (r :: rs) =
    (if v.key r = k ∧ index k = some (v.entry r) then size r else 0) +
      pointed v size index k rs := by
  unfold pointed
  by_cases h : v.key r = k ∧ index k = some (v.entry r)
  · simp [h.1, h.2]
  · rw [List.filter_cons_of_neg (by simpa using h), if_neg h, Nat.zero_add]

/-- An absent key points at nothing. -/
theorem pointed_of_none (h : index k = none) : pointed v size index k rs = 0 := by
  induction rs with
  | nil => rfl
  | cons r rs ih => simp [pointed_cons, ih, h]

/-- Records that the entry of the key is not about. -/
theorem pointed_of_not_mem {i : ι} (h : index k = some i) (hne : ∀ r ∈ rs, v.entry r ≠ i) :
    pointed v size index k rs = 0 := by
  induction rs with
  | nil => rfl
  | cons r rs ih =>
    have hr : i ≠ v.entry r := (hne r List.mem_cons_self).symm
    rw [pointed_cons, ih fun x hx => hne x (List.mem_cons_of_mem _ hx)]
    simp [h, hr]

/-- The one record that the entry of its key is about. -/
theorem pointed_of_mem (hr : r ∈ rs) (h : index (v.key r) = some (v.entry r))
    (huniq : rs.Pairwise fun a b => v.entry a ≠ v.entry b) :
    pointed v size index (v.key r) rs = size r := by
  induction rs with
  | nil => simp at hr
  | cons x rs ih =>
    obtain ⟨hx, hrest⟩ := List.pairwise_cons.mp huniq
    rcases List.mem_cons.mp hr with rfl | hr
    · rw [pointed_cons, if_pos ⟨rfl, h⟩,
        pointed_of_not_mem h fun y hy => (hx y hy).symm, Nat.add_zero]
    · have hne : ¬ (v.key x = v.key r ∧ index (v.key r) = some (v.entry x)) := by
        rintro ⟨-, hentry⟩
        exact hx r hr (Option.some_inj.mp (hentry.symm.trans h))
      rw [pointed_cons, if_neg hne, ih hr hrest, Nat.zero_add]

/-- When the entry of a key changes, and does not come to be about one of the records, the
record that it was about is added to the dead ones. -/
theorem dead_repoint (hframe : ∀ k', k' ≠ k → index' k' = index k')
    (hnew : ∀ r ∈ rs, v.key r = k → index' k ≠ some (v.entry r)) :
    dead v size index' rs = dead v size index rs + pointed v size index k rs := by
  induction rs with
  | nil => rfl
  | cons r rs ih =>
    rw [dead_cons, dead_cons, pointed_cons, ih fun x hx => hnew x (List.mem_cons_of_mem _ hx)]
    by_cases hk : v.key r = k
    · subst hk
      have hne := hnew r List.mem_cons_self rfl
      by_cases h : index (v.key r) = some (v.entry r)
      · simp only [if_neg hne, h, if_true, true_and]
        abel
      · simp only [if_neg hne, h, if_false, and_false]
        abel
    · simp only [hframe _ hk, hk, false_and, if_false]
      abel

end Dead
end LastWriter
