import Mathlib.Data.Fintype.Basic
import Mathlib.Logic.Function.Basic
import PedroDB.Lib.Transition

/-!
# Systems side by side

Components that share nothing. In a move one of them takes an action, or all of them take one
each. What happens to a component is a run of its own.

## Main definitions

* `Transition.Move` — one component acts, or all do
* `Transition.sideBySide` — the system of the components
* `Transition.project` — the actions of one component

## Main results

* `Run.project` — a run of the system is a run of each component
* `Meets.project` — whose steps meet the guard of the component
-/

namespace Transition

variable {ι σ α : Type*}

/-- One component takes an action, or each component takes one. -/
inductive Move (ι α : Type*)
  | one (i : ι) (a : α)
  | all (act : ι → α)

variable [DecidableEq ι] {step : ι → σ → α → Option σ} {g : ι → σ → α → Prop}
  {s t : ι → σ} {m : Move ι α} {ms : List (Move ι α)} {i : ι} {a : α}

/-- What component `i` does in a move. -/
def Move.at (i : ι) : Move ι α → Option α
  | .one j a => if j = i then some a else none
  | .all act => some (act i)

/-- The actions that component `i` takes. -/
def project (i : ι) (ms : List (Move ι α)) : List α := ms.filterMap (Move.at i)

/-- The steps of all components side by side. -/
def sideBySide [Fintype ι] (step : ι → σ → α → Option σ) (s : ι → σ) :
    Move ι α → Option (ι → σ)
  | .one i a => (step i (s i) a).map (Function.update s i)
  | .all act =>
    if h : ∀ i, (step i (s i) (act i)).isSome then some fun i => (step i (s i) (act i)).get (h i)
    else none

/-- Every action of a move meets the guard of its component. -/
def Componentwise (g : ι → σ → α → Prop) (s : ι → σ) (m : Move ι α) : Prop :=
  ∀ i, ∀ a ∈ m.at i, g i (s i) a

variable [Fintype ι]

theorem sideBySide_of_at (h : sideBySide step s m = some t) (ha : m.at i = some a) :
    step i (s i) a = some (t i) := by
  cases m with
  | one j b =>
    simp only [Move.at] at ha
    split_ifs at ha with hj
    subst hj
    obtain rfl := Option.some_inj.mp ha
    obtain ⟨u, hu, rfl⟩ := Option.map_eq_some_iff.mp h
    rw [hu, Function.update_self]
  | all act =>
    obtain rfl := Option.some_inj.mp ha
    simp only [sideBySide] at h
    split_ifs at h
    obtain rfl := Option.some_inj.mp h
    rw [Option.some_get]

theorem sideBySide_of_not_at (h : sideBySide step s m = some t) (ha : m.at i = none) :
    t i = s i := by
  cases m with
  | one j b =>
    simp only [Move.at] at ha
    split_ifs at ha with hj
    obtain ⟨u, -, rfl⟩ := Option.map_eq_some_iff.mp h
    exact Function.update_of_ne (Ne.symm hj) _ _
  | all act => cases ha

/-- A run of the system is a run of each component. -/
theorem Run.project (h : Run (sideBySide step) s ms t) (i : ι) :
    Run (step i) (s i) (project i ms) (t i) := by
  induction ms generalizing s with
  | nil =>
    obtain rfl := run_nil.mp h
    exact run_nil.mpr rfl
  | cons m ms ih =>
    obtain ⟨u, hu, hrest⟩ := run_cons.mp h
    rcases ha : m.at i with _ | a
    · rw [Transition.project, List.filterMap_cons_none ha, ← sideBySide_of_not_at hu ha]
      exact ih hrest
    · rw [Transition.project, List.filterMap_cons_some ha, run_cons]
      exact ⟨u i, sideBySide_of_at hu ha, ih hrest⟩

/-- If every move meets the guards, so does every action of each component. -/
theorem Meets.project (h : Meets (sideBySide step) (Componentwise g) s ms)
    (hrun : Run (sideBySide step) s ms t) (i : ι) :
    Meets (step i) (g i) (s i) (project i ms) := by
  induction ms generalizing s with
  | nil => exact meets_nil
  | cons m ms ih =>
    obtain ⟨u, hu, hrest⟩ := run_cons.mp hrun
    obtain ⟨hm, hms⟩ := meets_cons.mp h
    rcases ha : m.at i with _ | a
    · rw [Transition.project, List.filterMap_cons_none ha, ← sideBySide_of_not_at hu ha]
      exact ih (hms u hu) hrest
    · rw [Transition.project, List.filterMap_cons_some ha, meets_cons]
      refine ⟨hm i a ha, fun v hv => ?_⟩
      obtain rfl := Option.some_inj.mp (hv.symm.trans (sideBySide_of_at hu ha))
      exact ih (hms u hu) hrest

end Transition
