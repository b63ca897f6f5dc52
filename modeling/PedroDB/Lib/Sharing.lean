import Mathlib.Logic.Function.Basic
import PedroDB.Lib.Transition

/-!
# Components that share a resource

Components take turns, and every call of one of them may use and change a resource that all of
them share. If no call depends on what the others leave in the resource, each component answers
as if it were alone.

## Main definitions

* `Sharing.trace` — the answers to a list of calls, in order
* `Sharing.Guarded` — every call of the run meets a guard
* `Sharing.Indifferent` — what is left in the resource makes no difference

## Main results

* `Indifferent.of_alone` — which is so if the calls do what they do without a resource
* `Indifferent.trace_filter` — what a component is answered is what it would be answered alone
-/

namespace Sharing

variable {ι σ ρ α ο : Type*}

/-- The components, each with a state of its own, and the resource. -/
structure State (ι σ ρ : Type*) where
  own : ι → σ
  resource : ρ

/-- What a call of each component answers, and what it leaves of both states. -/
abbrev Calls (ι σ ρ α ο : Type*) := ι → σ → ρ → α → ο × σ × ρ

variable [DecidableEq ι]

/-- One call. -/
def step (act : Calls ι σ ρ α ο) (s : State ι σ ρ) (c : ι × α) : ο × State ι σ ρ :=
  let (answer, own, resource) := act c.1 (s.own c.1) s.resource c.2
  (answer, { own := Function.update s.own c.1 own, resource })

/-- The answers to a list of calls, each with the component that made the call. -/
def trace (act : Calls ι σ ρ α ο) : State ι σ ρ → List (ι × α) → List (ι × ο)
  | _, [] => []
  | s, c :: cs => (c.1, (step act s c).1) :: trace act (step act s c).2 cs

/-- Every call is made in a state of its component that meets the guard. -/
def Guarded (act : Calls ι σ ρ α ο) (g : ι → σ → α → Prop) (s : State ι σ ρ)
    (cs : List (ι × α)) : Prop :=
  Transition.Meets (fun s c => some (step act s c).2) (fun s c => g c.1 (s.own c.1) c.2) s cs

variable {act act' : Calls ι σ ρ α ο} {g : ι → σ → α → Prop} {I : ρ → Prop}
  {s s' : State ι σ ρ} {c : ι × α} {cs : List (ι × α)} {i : ι}

theorem guarded_cons :
    Guarded act g s (c :: cs) ↔ g c.1 (s.own c.1) c.2 ∧ Guarded act g (step act s c).2 cs := by
  rw [Guarded, Transition.meets_cons]
  apply and_congr_right
  intro _
  constructor
  · intro h
    exact h _ rfl
  · rintro h t ht
    obtain rfl := Option.some_inj.mp ht
    exact h

theorem step_own_self : (step act s c).2.own c.1 = (act c.1 (s.own c.1) s.resource c.2).2.1 :=
  Function.update_self _ _ _

theorem step_own_of_ne (hi : c.1 ≠ i) : (step act s c).2.own i = s.own i :=
  Function.update_of_ne (Ne.symm hi) _ _

/-- As long as the resource satisfies `I`, which all guarded calls preserve, a guarded call does
the same to its component in both systems. -/
structure Indifferent (act act' : Calls ι σ ρ α ο) (g : ι → σ → α → Prop) (I : ρ → Prop) :
    Prop where
  answer : ∀ i own r r' a, I r → I r' → g i own a → (act i own r a).1 = (act' i own r' a).1
  own : ∀ i own r r' a, I r → I r' → g i own a → (act i own r a).2.1 = (act' i own r' a).2.1
  keeps : ∀ i own r a, I r → g i own a → I (act i own r a).2.2
  keeps' : ∀ i own r a, I r → g i own a → I (act' i own r a).2.2

omit [DecidableEq ι] in
/-- Guarded calls of both systems do what `alone` does, where there is no resource. -/
theorem Indifferent.of_alone (alone : ι → σ → α → ο × σ)
    (h : ∀ i own r a, I r → g i own a →
      ∃ rest, act i own r a = ((alone i own a).1, (alone i own a).2, rest) ∧ I rest)
    (h' : ∀ i own r a, I r → g i own a →
      ∃ rest, act' i own r a = ((alone i own a).1, (alone i own a).2, rest) ∧ I rest) :
    Indifferent act act' g I := by
  constructor
  · intro i own r r' a hr hr' hg
    obtain ⟨rest, hact, -⟩ := h i own r a hr hg
    obtain ⟨rest', hact', -⟩ := h' i own r' a hr' hg
    rw [hact, hact']
  · intro i own r r' a hr hr' hg
    obtain ⟨rest, hact, -⟩ := h i own r a hr hg
    obtain ⟨rest', hact', -⟩ := h' i own r' a hr' hg
    rw [hact, hact']
  · intro i own r a hr hg
    obtain ⟨rest, hact, hrest⟩ := h i own r a hr hg
    rw [hact]
    exact hrest
  · intro i own r a hr hg
    obtain ⟨rest, hact, hrest⟩ := h' i own r a hr hg
    rw [hact]
    exact hrest

/-- What a component is answered is what it would be answered alone, with a resource of its own.
The calls of the others only keep `I`. -/
theorem Indifferent.trace_filter (h : Indifferent act act' g I) (hown : s'.own i = s.own i)
    (hr : I s.resource) (hr' : I s'.resource) (hg : Guarded act g s cs) :
    (trace act s cs).filter (fun answer => answer.1 = i) =
      trace act' s' (cs.filter fun c => c.1 = i) := by
  induction cs generalizing s s' with
  | nil => rfl
  | cons c cs ih =>
    obtain ⟨hc, hcs⟩ := guarded_cons.mp hg
    have hnext : I (step act s c).2.resource := h.keeps c.1 (s.own c.1) s.resource c.2 hr hc
    by_cases hi : c.1 = i
    · -- Both systems make the call.
      subst hi
      have hown' : (step act' s' c).2.own c.1 = (step act s c).2.own c.1 := by
        rw [step_own_self, step_own_self, hown]
        exact (h.own c.1 (s.own c.1) s.resource s'.resource c.2 hr hr' hc).symm
      have hnext' : I (step act' s' c).2.resource := by
        apply h.keeps' c.1 (s'.own c.1) s'.resource c.2 hr'
        rw [hown]
        exact hc
      have hanswer : (step act s c).1 = (step act' s' c).1 := by
        change (act c.1 (s.own c.1) s.resource c.2).1 = (act' c.1 (s'.own c.1) s'.resource c.2).1
        rw [hown]
        exact h.answer c.1 (s.own c.1) s.resource s'.resource c.2 hr hr' hc
      rw [trace, List.filter_cons_of_pos (by simp), List.filter_cons_of_pos (by simp), trace,
        ih hown' hnext hnext' hcs, hanswer]
    · -- Only the first one does, and the component stays as it is.
      rw [trace, List.filter_cons_of_neg (by simpa using hi),
        List.filter_cons_of_neg (by simpa using hi)]
      apply ih _ hnext hr' hcs
      rw [step_own_of_ne hi, hown]

end Sharing
