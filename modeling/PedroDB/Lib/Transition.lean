import Mathlib.Data.List.Basic
import Mathlib.Data.List.Infix

/-!
# Runs of a deterministic transition function

A system is a partial step function: an action either is not enabled in a state or
leads to one next state. Which thread moves, and every other choice, is part of the
action, so a list of actions determines a run.

## Main definitions

* `Transition.Run` — a list of actions leads from one state to another
* `Transition.Meets` — every step of a run meets a guard
* `Transition.check` — the guard evaluated along a run

## Main results

* `Run.invariant` — what every guarded step preserves holds at the end of the run
* `Meets.exists_run` — a run is possible if every guarded step is
* `Run.history` — the same for facts about the state and the actions so far
* `Run.forall_prefix_iff_meets` — a guard that decides, step by step, whether a
  property survives, decides it for the whole run
-/

namespace Transition

variable {σ α : Type*} {step : σ → α → Option σ} {g g' : σ → α → Prop}
variable {s t u : σ} {a : α} {as bs : List α}

/-- The actions `as` lead from state `s` to state `t`. -/
def Run (step : σ → α → Option σ) (s : σ) (as : List α) (t : σ) : Prop :=
  as.foldlM step s = some t

@[simp] theorem run_nil : Run step s [] t ↔ s = t := by
  simp [Run]

theorem run_append : Run step s (as ++ bs) u ↔ ∃ t, Run step s as t ∧ Run step t bs u := by
  simp [Run, List.foldlM_append, Option.bind_eq_some_iff]

@[simp] theorem run_cons : Run step s (a :: as) u ↔ ∃ t, step s a = some t ∧ Run step t as u := by
  simp [Run, Option.bind_eq_some_iff]

theorem run_concat : Run step s (as ++ [a]) u ↔ ∃ t, Run step s as t ∧ step t a = some u := by
  simp [run_append]

theorem Run.unique (h : Run step s as t) (h' : Run step s as u) : t = u :=
  Option.some_inj.mp (h.symm.trans h')

/-- Every step of the run of `as` from `s` meets the guard `g` in the state before it. -/
def Meets (step : σ → α → Option σ) (g : σ → α → Prop) (s : σ) (as : List α) : Prop :=
  ∀ pre a post t, as = pre ++ a :: post → Run step s pre t → g t a

@[simp] theorem meets_nil : Meets step g s [] := by
  intro pre a post t h
  simp at h

theorem Meets.of_append (h : Meets step g s (as ++ bs)) : Meets step g s as := by
  rintro pre a post t rfl hrun
  exact h pre a (post ++ bs) t (by simp) hrun

theorem Meets.of_run (h : Meets step g s (as ++ bs)) (hrun : Run step s as t) :
    Meets step g t bs := by
  rintro pre a post u rfl hpre
  exact h (as ++ pre) a post u (by simp) (run_append.mpr ⟨t, hrun, hpre⟩)

theorem meets_concat (hrun : Run step s as t) :
    Meets step g s (as ++ [a]) ↔ Meets step g s as ∧ g t a := by
  constructor
  · intro h
    exact ⟨h.of_append, h as a [] t rfl hrun⟩
  · rintro ⟨h, ha⟩ pre b post u heq hpre
    rcases List.append_eq_append_iff.mp heq with ⟨cs, rfl, hcs⟩ | ⟨cs, rfl, hcs⟩
    · cases cs with
      | nil =>
        obtain ⟨rfl, -⟩ := List.cons.inj hcs
        rw [List.append_nil] at hpre
        exact hrun.unique hpre ▸ ha
      | cons c cs => simp at hcs
    · cases cs with
      | nil =>
        obtain ⟨rfl, -⟩ := List.cons.inj hcs
        rw [List.append_nil] at hrun
        exact hrun.unique hpre ▸ ha
      | cons c cs =>
        obtain ⟨rfl, rfl⟩ := List.cons.inj hcs
        exact h pre b cs u rfl hpre

theorem meets_cons :
    Meets step g s (a :: as) ↔ g s a ∧ ∀ t, step s a = some t → Meets step g t as := by
  constructor
  · intro h
    refine ⟨h [] a as s rfl (run_nil.mpr rfl), fun t ht => ?_⟩
    rintro pre b post u rfl hpre
    exact h (a :: pre) b post u rfl (run_cons.mpr ⟨t, ht, hpre⟩)
  · rintro ⟨ha, hrest⟩ pre b post u heq hpre
    cases pre with
    | nil =>
      obtain ⟨rfl, rfl⟩ := List.cons.inj heq
      exact run_nil.mp hpre ▸ ha
    | cons c pre =>
      obtain ⟨rfl, rfl⟩ := List.cons.inj heq
      obtain ⟨t, ht, hpre⟩ := run_cons.mp hpre
      exact hrest t ht pre b post u rfl hpre

theorem Meets.append (h : Meets step g s as) (hrun : Run step s as t) (h' : Meets step g t bs) :
    Meets step g s (as ++ bs) := by
  induction as generalizing s with
  | nil => exact run_nil.mp hrun ▸ h'
  | cons a as ih =>
    obtain ⟨u, hu, hrun⟩ := run_cons.mp hrun
    obtain ⟨ha, hrest⟩ := meets_cons.mp h
    refine meets_cons.mpr ⟨ha, fun v hv => ?_⟩
    obtain rfl := Option.some_inj.mp (hu.symm.trans hv)
    exact ih (hrest u hu) hrun

/-- Evaluate a guard along the run of `as`. -/
def check (step : σ → α → Option σ) (g : σ → α → Prop) [∀ s a, Decidable (g s a)] :
    σ → List α → Bool
  | _, [] => true
  | s, a :: as => decide (g s a) && ((step s a).map fun t => check step g t as).getD true

theorem meets_of_check [∀ s a, Decidable (g s a)] (h : check step g s as = true) :
    Meets step g s as := by
  induction as generalizing s with
  | nil => exact meets_nil
  | cons a as ih =>
    rw [check, Bool.and_eq_true, decide_eq_true_iff] at h
    refine meets_cons.mpr ⟨h.1, fun t ht => ih ?_⟩
    simpa [ht] using h.2

/-- Runs whose actions are those of another system under other names. -/
theorem run_map {β : Type*} {f : β → α} {bs : List β} :
    Run step s (bs.map f) t ↔ Run (fun s b => step s (f b)) s bs t := by
  rw [Run, List.foldlM_map]
  rfl

theorem meets_map {β : Type*} {f : β → α} {bs : List β} :
    Meets step g s (bs.map f) ↔ Meets (fun s b => step s (f b)) (fun s b => g s (f b)) s bs := by
  induction bs generalizing s with
  | nil => simp
  | cons b bs ih => simp only [List.map_cons, meets_cons, ih]

theorem Meets.mono (h : Meets step g s as) (hgg : ∀ t a, g t a → g' t a) :
    Meets step g' s as :=
  fun pre a post t heq hrun => hgg t a (h pre a post t heq hrun)

/-- If every guarded step that starts with `P` is possible and keeps `P`, so is a run whose steps
meet the guard. -/
theorem Meets.exists_run {P : σ → Prop} (h : Meets step g s as) (hinit : P s)
    (hstep : ∀ t a, P t → g t a → ∃ u, step t a = some u ∧ P u) : ∃ t, Run step s as t ∧ P t := by
  induction as generalizing s with
  | nil => exact ⟨s, run_nil.mpr rfl, hinit⟩
  | cons a as ih =>
    obtain ⟨ha, hrest⟩ := meets_cons.mp h
    obtain ⟨u, hu, hP⟩ := hstep s a hinit ha
    obtain ⟨t, ht, hPt⟩ := ih (hrest u hu) hP
    exact ⟨t, run_cons.mpr ⟨u, hu, ht⟩, hPt⟩

/-- Facts about the state and the actions so far: what every guarded step extends
holds at the end of a run whose steps meet the guard. -/
theorem Run.history {P : List α → σ → Prop} (hrun : Run step s as t)
    (hmeets : Meets step g s as) (hinit : P [] s)
    (hstep : ∀ as t a u, P as t → g t a → step t a = some u → P (as ++ [a]) u) : P as t := by
  induction as using List.reverseRecOn generalizing t with
  | nil =>
    obtain rfl := run_nil.mp hrun
    exact hinit
  | append_singleton as a ih =>
    obtain ⟨u, hu, ha⟩ := run_concat.mp hrun
    obtain ⟨hmeets', hg⟩ := (meets_concat hu).mp hmeets
    exact hstep as u a t (ih hu hmeets') hg ha

/-- What every guarded step preserves holds at the end of a run whose steps meet the
guard. -/
theorem Run.invariant {P : σ → Prop} (hrun : Run step s as t) (hmeets : Meets step g s as)
    (hinit : P s) (hstep : ∀ t a u, P t → g t a → step t a = some u → P u) : P t :=
  hrun.history (P := fun _ t => P t) hmeets hinit fun _ t a u => hstep t a u

/-- A run is not longer than what a rank allows that every guarded step lowers. -/
theorem Run.length_le {I : σ → Prop} {rank : σ → ℕ} (hrun : Run step s as t)
    (hmeets : Meets step g s as) (hinit : I s)
    (hstep : ∀ t a u, I t → g t a → step t a = some u → I u ∧ rank u < rank t) :
    as.length + rank t ≤ rank s := by
  refine (hrun.history (P := fun as t => I t ∧ as.length + rank t ≤ rank s) hmeets
    ⟨hinit, by simp⟩ ?_).2
  rintro as t a u ⟨hI, hle⟩ hg hu
  obtain ⟨hIu, hlt⟩ := hstep t a u hI hg hu
  rw [List.length_append, List.length_singleton]
  exact ⟨hIu, by omega⟩

/-- If in the states that satisfy `I` and `P` the guard decides whether the next step
keeps `P`, then `P` holds all along a run exactly if every step meets the guard. The
steps may be known to meet another guard `g'`. -/
theorem Run.forall_prefix_iff_meets {P I : σ → Prop} (hrun : Run step s as t)
    (hmeets : Meets step g' s as) (hinit : I s ∧ P s)
    (hI : ∀ t a u, I t → P t → P u → g' t a → step t a = some u → I u)
    (hstep : ∀ t a u, I t → P t → g' t a → step t a = some u → (P u ↔ g t a)) :
    (∀ bs u, bs <+: as → Run step s bs u → P u) ↔ Meets step g s as := by
  -- The guard of the steps in front holds on every prefix.
  have hguard : ∀ {bs b v}, bs ++ [b] <+: as → Run step s bs v → g' v b := by
    rintro bs b v ⟨post, hpost⟩ hv
    exact hmeets bs b post v (by simp [← hpost]) hv
  -- The invariant, by induction from the end, as long as the property holds.
  have hinv : ∀ bs u, bs <+: as → (∀ cs v, cs <+: bs → Run step s cs v → P v) →
      Run step s bs u → I u := by
    intro bs
    induction bs using List.reverseRecOn with
    | nil =>
      intro u _ _ hu
      exact run_nil.mp hu ▸ hinit.1
    | append_singleton bs b ih =>
      intro u hle hP hu
      obtain ⟨v, hv, hb⟩ := run_concat.mp hu
      have hbs : bs <+: bs ++ [b] := List.prefix_append bs [b]
      exact hI v b u (ih v (hbs.trans hle) (fun cs w hcs => hP cs w (hcs.trans hbs)) hv)
        (hP bs v hbs hv) (hP _ u (List.prefix_refl _) hu) (hguard hle hv) hb
  constructor
  · -- Both states around a step have the property, so the step meets the guard.
    rintro hP pre a post v rfl hpre
    obtain ⟨v', hv', hrest⟩ := run_append.mp hrun
    obtain rfl := hv'.unique hpre
    obtain ⟨w, hw, -⟩ := run_cons.mp hrest
    have hle : pre <+: pre ++ a :: post := List.prefix_append pre _
    have hle' : pre ++ [a] <+: pre ++ a :: post := ⟨post, by simp⟩
    exact (hstep v' a w (hinv pre v' hle (fun cs x hcs => hP cs x (hcs.trans hle)) hpre)
      (hP pre v' hle hpre) (hguard hle' hpre) hw).mp (hP _ w hle' (run_concat.mpr ⟨v', hpre, hw⟩))
  · -- Invariant and property together, by induction from the end.
    intro hguarded bs
    have key : ∀ bs u, bs <+: as → Run step s bs u → I u ∧ P u := by
      intro bs
      induction bs using List.reverseRecOn with
      | nil =>
        intro u _ hu
        exact run_nil.mp hu ▸ hinit
      | append_singleton bs b ih =>
        intro u hle hu
        obtain ⟨v, hv, hb⟩ := run_concat.mp hu
        obtain ⟨hIv, hPv⟩ := ih v ((List.prefix_append bs [b]).trans hle) hv
        have hg' := hguard hle hv
        obtain ⟨post, rfl⟩ := hle
        have hPu := (hstep v b u hIv hPv hg' hb).mpr (hguarded bs b post v (by simp) hv)
        exact ⟨hI v b u hIv hPv hPu hg' hb, hPu⟩
    intro u hle hu
    exact (key bs u hle hu).2

end Transition
