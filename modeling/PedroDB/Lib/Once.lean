import Mathlib.Data.List.Nodup
import Mathlib.Logic.Function.Basic

/-!
# Things that are in one place at a time

A family of lists, one for each place, in which everything occurs at most once over all
places. The rules say how things may arrive, move and leave.

## Main definitions

* `Once` — everything occurs at most once
* `Somewhere` — it occurs

## Main results

* `Once.push` — something that is nowhere arrives
* `Once.move` — things move from one place to another
* `Once.sublist`, `Once.leave` — things leave
-/

variable {ι α : Type*} {place place' : ι → List α} {p q : ι} {x : α} {xs rest : List α}

/-- Everything occurs at most once over all places. -/
structure Once (place : ι → List α) : Prop where
  nodup : ∀ p, (place p).Nodup
  unique : ∀ p q x, x ∈ place p → x ∈ place q → p = q

/-- It occurs at some place. -/
def Somewhere (place : ι → List α) (x : α) : Prop := ∃ p, x ∈ place p

namespace Once

/-- Things leave. -/
theorem sublist (h : Once place) (hsub : ∀ p, (place' p).Sublist (place p)) : Once place' where
  nodup p := (h.nodup p).sublist (hsub p)
  unique p q x hp hq := h.unique p q x ((hsub p).subset hp) ((hsub q).subset hq)

variable [DecidableEq ι]

/-- The first thing at place `p` leaves. -/
theorem leave (h : Once place) (hp : place p = x :: xs) :
    Once (Function.update place p xs) ∧
      ∀ y, Somewhere (Function.update place p xs) y ↔ Somewhere place y ∧ y ≠ x := by
  have hnodup := h.nodup p
  rw [hp] at hnodup
  have hx : x ∉ xs := (List.nodup_cons.mp hnodup).1
  refine ⟨h.sublist fun q => ?_, fun y => ⟨?_, ?_⟩⟩
  · by_cases hq : q = p
    · subst hq
      rw [Function.update_self, hp]
      exact List.sublist_cons_self x xs
    · rw [Function.update_of_ne hq]
  · -- What is left of `p` is not `x`, and no other place has `x`.
    rintro ⟨q, hq⟩
    by_cases hqp : q = p
    · subst hqp
      rw [Function.update_self] at hq
      exact ⟨⟨q, by rw [hp]; exact List.mem_cons_of_mem x hq⟩, fun hy => hx (hy ▸ hq)⟩
    · rw [Function.update_of_ne hqp] at hq
      refine ⟨⟨q, hq⟩, fun hy => hqp (h.unique q p x (hy ▸ hq) ?_)⟩
      rw [hp]
      exact List.mem_cons_self
  · rintro ⟨⟨q, hq⟩, hne⟩
    by_cases hqp : q = p
    · subst hqp
      rw [hp] at hq
      exact ⟨q, by rw [Function.update_self]; exact (List.mem_cons.mp hq).resolve_left hne⟩
    · exact ⟨q, by rwa [Function.update_of_ne hqp]⟩

/-- Something that is nowhere arrives at one place. -/
theorem push (h : Once place) (hx : ¬ Somewhere place x) (p : ι) :
    Once (Function.update place p (place p ++ [x])) := by
  have hmem : ∀ q y, y ∈ Function.update place p (place p ++ [x]) q →
      y ∈ place q ∨ y = x ∧ q = p := by
    intro q y hy
    by_cases hq : q = p
    · subst hq
      rw [Function.update_self, List.mem_append, List.mem_singleton] at hy
      exact hy.imp_right fun hy => ⟨hy, rfl⟩
    · rw [Function.update_of_ne hq] at hy
      exact Or.inl hy
  refine ⟨fun q => ?_, fun q r y hq hr => ?_⟩
  · by_cases hq : q = p
    · subst hq
      rw [Function.update_self]
      exact List.Nodup.append (h.nodup q) (List.nodup_singleton x)
        (List.disjoint_singleton.mpr fun hmem => hx ⟨q, hmem⟩)
    · rw [Function.update_of_ne hq]
      exact h.nodup q
  · rcases hmem q y hq with hold | ⟨hy, hqp⟩
    · rcases hmem r y hr with hold' | ⟨rfl, -⟩
      · exact h.unique q r y hold hold'
      · exact absurd ⟨q, hold⟩ hx
    · rcases hmem r y hr with hold' | ⟨-, hrp⟩
      · exact absurd ⟨r, hy ▸ hold'⟩ hx
      · rw [hqp, hrp]

/-- Things move from place `p` to the end of place `q`. -/
theorem move (h : Once place) (hpq : p ≠ q) (hperm : (rest ++ xs).Perm (place p)) :
    Once (Function.update (Function.update place p rest) q (place q ++ xs)) := by
  have hnodup : (rest ++ xs).Nodup := hperm.nodup_iff.mpr (h.nodup p)
  have hp : ∀ y, y ∈ rest ∨ y ∈ xs → y ∈ place p := fun y hy =>
    hperm.subset (List.mem_append.mpr hy)
  -- Everything comes from where it was, or has moved.
  have hmem : ∀ r y, y ∈ Function.update (Function.update place p rest) q (place q ++ xs) r →
      y ∈ place r ∧ (y ∈ xs → r ≠ p) ∨ y ∈ xs ∧ r = q := by
    intro r y hy
    by_cases hr : r = q
    · subst hr
      rw [Function.update_self, List.mem_append] at hy
      rcases hy with hy | hy
      · exact Or.inl ⟨hy, fun _ => hpq.symm⟩
      · exact Or.inr ⟨hy, rfl⟩
    · rw [Function.update_of_ne hr] at hy
      by_cases hrp : r = p
      · subst hrp
        rw [Function.update_self] at hy
        exact Or.inl ⟨hp y (Or.inl hy), fun hx =>
          absurd hx ((List.nodup_append.mp hnodup).2.2 y hy y · rfl)⟩
      · rw [Function.update_of_ne hrp] at hy
        exact Or.inl ⟨hy, fun _ => hrp⟩
  -- No place holds anything twice.
  refine ⟨fun r => ?_, fun r r' y hr hr' => ?_⟩
  · by_cases hr : r = q
    · subst hr
      rw [Function.update_self]
      exact List.Nodup.append (h.nodup r) (List.nodup_append.mp hnodup).2.1
        fun y hy hx => hpq (h.unique p r y (hp y (Or.inr hx)) hy)
    · rw [Function.update_of_ne hr]
      by_cases hrp : r = p
      · subst hrp
        rw [Function.update_self]
        exact (List.nodup_append.mp hnodup).1
      · rw [Function.update_of_ne hrp]
        exact h.nodup r
  · -- What has moved is not at its old place any more.
    have hcross : ∀ r, y ∈ place r ∧ (y ∈ xs → r ≠ p) → y ∈ xs → False := fun r hy hx =>
      hy.2 hx (h.unique r p y hy.1 (hp y (Or.inr hx)))
    rcases hmem r y hr with hold | ⟨hx, hrq⟩
    · rcases hmem r' y hr' with hold' | ⟨hx', -⟩
      · exact h.unique r r' y hold.1 hold'.1
      · exact (hcross r hold hx').elim
    · rcases hmem r' y hr' with hold' | ⟨-, hrq'⟩
      · exact (hcross r' hold' hx).elim
      · rw [hrq, hrq']

/-- Nothing arrives or leaves when things move. -/
theorem somewhere_move (hpq : p ≠ q) (hperm : (rest ++ xs).Perm (place p)) :
    Somewhere (Function.update (Function.update place p rest) q (place q ++ xs)) x ↔
      Somewhere place x := by
  constructor
  · -- Backwards: what arrived at `q` was at `p`.
    rintro ⟨r, hr⟩
    by_cases hrq : r = q
    · subst hrq
      rw [Function.update_self, List.mem_append] at hr
      rcases hr with hr | hr
      · exact ⟨r, hr⟩
      · exact ⟨p, hperm.subset (List.mem_append_right rest hr)⟩
    · rw [Function.update_of_ne hrq] at hr
      by_cases hrp : r = p
      · subst hrp
        rw [Function.update_self] at hr
        exact ⟨r, hperm.subset (List.mem_append_left xs hr)⟩
      · rw [Function.update_of_ne hrp] at hr
        exact ⟨r, hr⟩
  · -- Forwards: what leaves `p` is among the `xs`.
    rintro ⟨r, hr⟩
    by_cases hrp : r = p
    · subst hrp
      rcases List.mem_append.mp (hperm.mem_iff.mpr hr) with hx | hx
      · exact ⟨r, by rwa [Function.update_of_ne hpq, Function.update_self]⟩
      · exact ⟨q, by rw [Function.update_self]; exact List.mem_append_right _ hx⟩
    · by_cases hrq : r = q
      · subst hrq
        exact ⟨r, by rw [Function.update_self]; exact List.mem_append_left _ hr⟩
      · exact ⟨r, by rwa [Function.update_of_ne hrq, Function.update_of_ne hrp]⟩

end Once
