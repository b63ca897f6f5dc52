import PedroDB.Lib.Product

/-!
# Simulations

Two systems take the same actions, and answer some of them. If related states answer alike and
lead to related states, the two systems give the same answers all along a run.

## Main definitions

* `Transition.System` — a transition function some of whose actions are answered
* `System.replies` — the answers along a run
* `System.comap`, `System.sideBySide` — the actions renamed, and components next to each other
* `Transition.Simulates` — one system answers as another one does
* `Transition.Spec`, `Spec.Allows` — a specification that leaves choices
* `Transition.Refines` — a system does only what its specification allows

## Main results

* `Simulates.run`, `Refines.run` — then it does so all along a run
* `Simulates.trans`, `Simulates.comap`, `Simulates.sideBySide` — how simulations compose
-/

namespace Transition

/-- A system that answers some of its actions. -/
structure System (σ α ρ : Type*) where
  step : σ → α → Option σ
  reply : σ → α → Option ρ

variable {ι σ τ υ α β ρ : Type*}

namespace System

/-- The answers along a run, as far as it goes. -/
def replies (S : System σ α ρ) : σ → List α → List (Option ρ)
  | _, [] => []
  | s, a :: as =>
    match S.step s a with
    | none => []
    | some t => S.reply s a :: S.replies t as

/-- The system under other names of its actions. -/
def comap (S : System σ β ρ) (f : α → β) : System σ α ρ where
  step s a := S.step s (f a)
  reply s a := S.reply s (f a)

/-- Components side by side. What all of them do at once is not answered. -/
def sideBySide [DecidableEq ι] [Fintype ι] (S : ι → System σ α ρ) :
    System (ι → σ) (Move ι α) ρ where
  step := Transition.sideBySide fun i => (S i).step
  reply s
    | .one i a => (S i).reply (s i) a
    | .all _ => none

end System

/-- From related states, a step that meets the guard is possible in both systems, is answered
alike, and leads to related states. -/
def Simulates (S : System σ α ρ) (T : System τ α ρ) (g : σ → α → Prop) (R : σ → τ → Prop) : Prop :=
  ∀ s t a s', R s t → g s a → S.step s a = some s' →
    S.reply s a = T.reply t a ∧ ∃ t', T.step t a = some t' ∧ R s' t'

namespace Simulates

variable {S : System σ α ρ} {T : System τ α ρ} {U : System υ α ρ} {g : σ → α → Prop}
  {R : σ → τ → Prop}

/-- Related states give the same answers all along a run. -/
theorem run (h : Simulates S T g R) {s s' : σ} {t : τ} {as : List α} (hR : R s t)
    (hmeets : Meets S.step g s as) (hrun : Run S.step s as s') :
    S.replies s as = T.replies t as ∧ ∃ t', Run T.step t as t' ∧ R s' t' := by
  induction as generalizing s t with
  | nil =>
    obtain rfl := run_nil.mp hrun
    exact ⟨rfl, t, run_nil.mpr rfl, hR⟩
  | cons a as ih =>
    obtain ⟨hg, hrest⟩ := meets_cons.mp hmeets
    obtain ⟨u, hu, hrun⟩ := run_cons.mp hrun
    obtain ⟨hreply, v, hv, hR'⟩ := h s t a u hR hg hu
    obtain ⟨hreplies, t', ht', hend⟩ := ih hR' (hrest u hu) hrun
    refine ⟨?_, t', run_cons.mpr ⟨v, hv, ht'⟩, hend⟩
    rw [System.replies, System.replies, hu, hv]
    exact congrArg₂ List.cons hreply hreplies

theorem trans {R' : τ → υ → Prop} (h : Simulates S T g R)
    (h' : Simulates T U (fun _ _ => True) R') :
    Simulates S U g fun s u => ∃ t, R s t ∧ R' t u := by
  rintro s u a s' ⟨t, hR, hR'⟩ hg hs
  obtain ⟨hreply, t', ht, hnext⟩ := h s t a s' hR hg hs
  obtain ⟨hreply', u', hu, hnext'⟩ := h' t u a t' hR' trivial ht
  exact ⟨hreply.trans hreply', u', hu, t', hnext, hnext'⟩

theorem comap (h : Simulates S T g R) (f : β → α) :
    Simulates (S.comap f) (T.comap f) (fun s b => g s (f b)) R :=
  fun s t b s' hR hg hs => h s t (f b) s' hR hg hs

/-- Components that are simulated one by one are so side by side. -/
theorem sideBySide [DecidableEq ι] [Fintype ι] {S : ι → System σ α ρ} {T : ι → System τ α ρ}
    {g : ι → σ → α → Prop} {R : ι → σ → τ → Prop} (h : ∀ i, Simulates (S i) (T i) (g i) (R i)) :
    Simulates (.sideBySide S) (.sideBySide T) (Componentwise g)
      fun s t => ∀ i, R i (s i) (t i) := by
  rintro s t m s' hR hg hs
  have hs : Transition.sideBySide (fun i => (S i).step) s m = some s' := hs
  -- Each component that takes part has a step on both sides.
  have hpart : ∀ {i a}, m.at i = some a → (S i).reply (s i) a = (T i).reply (t i) a ∧
      ∃ u, (T i).step (t i) a = some u ∧ R i (s' i) u := fun {i a} ha =>
    h i (s i) (t i) a (s' i) (hR i) (hg i a ha) (sideBySide_of_at hs ha)
  cases m with
  | one i a =>
    obtain ⟨hreply, u, hu, hR'⟩ := hpart (i := i) (if_pos rfl)
    refine ⟨hreply, Function.update t i u, ?_, fun j => ?_⟩
    · exact Option.map_eq_some_iff.mpr ⟨u, hu, rfl⟩
    · by_cases hj : i = j
      · subst hj
        rwa [Function.update_self]
      · rw [Function.update_of_ne (Ne.symm hj), sideBySide_of_not_at hs (if_neg hj)]
        exact hR j
  | all act =>
    choose _ u hu hR' using fun i => hpart (i := i) (a := act i) rfl
    refine ⟨rfl, u, ?_, hR'⟩
    have hsome : ∀ i, ((T i).step (t i) (act i)).isSome := fun i => by rw [hu i]; rfl
    refine (dif_pos hsome).trans (congrArg some (funext fun i => ?_))
    rw [Option.get_of_eq_some (hsome i) (hu i)]

end Simulates

/-! ### Specifications that leave choices -/

/-- What an action may be answered, and where it may lead. -/
abbrev Spec (τ α ρ : Type*) := τ → α → Option ρ → τ → Prop

/-- The specification allows these answers along a run. -/
inductive Spec.Allows (T : Spec τ α ρ) : τ → List α → List (Option ρ) → τ → Prop
  | nil {t : τ} : Allows T t [] [] t
  | cons {t u v : τ} {a : α} {r : Option ρ} {as : List α} {rs : List (Option ρ)}
      (hstep : T t a r u) (hrest : Allows T u as rs v) : Allows T t (a :: as) (r :: rs) v

/-- From related states, a step that meets the guard is one that the specification allows, and
leads to related states. -/
def Refines (S : System σ α ρ) (T : Spec τ α ρ) (g : σ → α → Prop) (R : σ → τ → Prop) : Prop :=
  ∀ s t a s', R s t → g s a → S.step s a = some s' → ∃ t', T t a (S.reply s a) t' ∧ R s' t'

/-- Then the specification allows all answers of a run. -/
theorem Refines.run {S : System σ α ρ} {T : Spec τ α ρ} {g : σ → α → Prop} {R : σ → τ → Prop}
    (h : Refines S T g R) {s s' : σ} {t : τ} {as : List α} (hR : R s t)
    (hmeets : Meets S.step g s as) (hrun : Run S.step s as s') :
    ∃ t', T.Allows t as (S.replies s as) t' ∧ R s' t' := by
  induction as generalizing s t with
  | nil =>
    obtain rfl := run_nil.mp hrun
    exact ⟨t, .nil, hR⟩
  | cons a as ih =>
    obtain ⟨hg, hrest⟩ := meets_cons.mp hmeets
    obtain ⟨u, hu, hrun⟩ := run_cons.mp hrun
    obtain ⟨v, hv, hR'⟩ := h s t a u hR hg hu
    obtain ⟨t', hallows, hend⟩ := ih hR' (hrest u hu) hrun
    refine ⟨t', ?_, hend⟩
    rw [System.replies, hu]
    exact .cons hv hallows

end Transition
