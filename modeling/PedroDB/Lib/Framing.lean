import Mathlib.Data.List.Basic
import Mathlib.Algebra.BigOperators.Group.List.Basic
import Mathlib.Tactic.Linarith

/-!
# Frames laid end to end

A log is a list of frames laid end to end from position zero, each as long as its
`size` says. This file says where each frame stands.

## Main definitions

* `Framing.total` — the length of a list of frames
* `Framing.At` — a frame stands at an offset
* `Framing.frames` — the frames with their offsets

## Main results

* `At.unique` — frames of positive size have distinct offsets
* `at_concat_iff` — appending adds one frame, at the old end
* `mem_frames_iff` — `frames` lists exactly the frames, each at its offset
-/

namespace Framing

variable {α : Type*} {size : α → ℕ} {xs ys : List α} {x y : α} {o o' p : ℕ}

/-- The length of the frames laid end to end. -/
def total (size : α → ℕ) (xs : List α) : ℕ := (xs.map size).sum

@[simp] theorem total_nil : total size ([] : List α) = 0 := rfl

@[simp] theorem total_cons : total size (x :: xs) = size x + total size xs := by
  simp [total]

@[simp] theorem total_append : total size (xs ++ ys) = total size xs + total size ys := by
  simp [total]

/-- Frame `x` stands at offset `o`. -/
def At (size : α → ℕ) (xs : List α) (o : ℕ) (x : α) : Prop :=
  ∃ pre post, xs = pre ++ x :: post ∧ total size pre = o

theorem not_at_nil : ¬ At size ([] : List α) o x := by
  rintro ⟨pre, post, h, -⟩
  simp at h

theorem At.mem (h : At size xs o x) : x ∈ xs := by
  obtain ⟨pre, post, rfl, -⟩ := h
  simp

theorem At.append (h : At size xs o x) (ys : List α) : At size (xs ++ ys) o x := by
  obtain ⟨pre, post, rfl, ho⟩ := h
  exact ⟨pre, post ++ ys, by simp, ho⟩

theorem At.end_le (h : At size xs o x) : o + size x ≤ total size xs := by
  obtain ⟨pre, post, rfl, rfl⟩ := h
  simp [← Nat.add_assoc]

theorem at_total (xs : List α) (x : α) (ys : List α) :
    At size (xs ++ x :: ys) (total size xs) x :=
  ⟨xs, ys, rfl, rfl⟩

/-- The frames of a longer list stand in its first part or behind it. -/
theorem at_append_iff :
    At size (xs ++ ys) o x ↔
      At size xs o x ∨ ∃ o', At size ys o' x ∧ o = total size xs + o' := by
  constructor
  · rintro ⟨pre, post, h, rfl⟩
    rcases List.append_eq_append_iff.mp h with ⟨as, rfl, h'⟩ | ⟨bs, rfl, h'⟩
    · exact Or.inr ⟨total size as, ⟨as, post, h', rfl⟩, by simp⟩
    · cases bs with
      | nil => exact Or.inr ⟨0, ⟨[], post, by simpa using h'.symm, rfl⟩, by simp⟩
      | cons b bs =>
        obtain ⟨rfl, rfl⟩ := List.cons.inj h'
        exact Or.inl ⟨pre, bs, rfl, rfl⟩
  · rintro (h | ⟨o', ⟨pre, post, rfl, rfl⟩, rfl⟩)
    · exact h.append ys
    · exact ⟨xs ++ pre, post, by simp, by simp⟩

theorem at_singleton_iff : At size [y] o x ↔ o = 0 ∧ x = y := by
  constructor
  · rintro ⟨pre, post, h, rfl⟩
    cases pre with
    | nil => simpa [eq_comm] using (List.cons.inj h).1
    | cons a pre => simp at h
  · rintro ⟨rfl, rfl⟩
    exact at_total [] x []

/-- Appending a frame adds it at the old end and moves no other. -/
theorem at_concat_iff :
    At size (xs ++ [y]) o x ↔ At size xs o x ∨ o = total size xs ∧ x = y := by
  rw [at_append_iff]
  refine or_congr_right ?_
  constructor
  · rintro ⟨o', h, rfl⟩
    obtain ⟨rfl, rfl⟩ := at_singleton_iff.mp h
    exact ⟨rfl, rfl⟩
  · rintro ⟨rfl, rfl⟩
    exact ⟨0, at_singleton_iff.mpr ⟨rfl, rfl⟩, rfl⟩

/-- Two frames of positive size do not stand at one offset. -/
theorem At.unique (hpos : ∀ z ∈ xs, 0 < size z) (hx : At size xs o x) (hy : At size xs o y) :
    x = y := by
  obtain ⟨pre, post, rfl, rfl⟩ := hx
  rcases at_append_iff.mp hy with h | ⟨o', ⟨pre', post', h, rfl⟩, ho⟩
  · have := h.end_le
    have := hpos y (List.mem_append_left _ h.mem)
    omega
  · cases pre' with
    | nil => exact (List.cons.inj h).1
    | cons a pre' =>
      obtain ⟨rfl, rfl⟩ := List.cons.inj h
      have := hpos x (by simp)
      simp only [total_cons] at ho
      omega

/-- A frame that starts at or behind the end of a prefix stands in the rest. -/
theorem At.of_total_le (h : At size (xs ++ ys) o x) (hle : total size xs ≤ o)
    (hpos : 0 < size x) : ∃ o', At size ys o' x ∧ o = total size xs + o' := by
  rcases at_append_iff.mp h with h | h
  · have := h.end_le
    omega
  · exact h

/-- The frames with their offsets, the first one at `o`. -/
def framesFrom (size : α → ℕ) : ℕ → List α → List (ℕ × α)
  | _, [] => []
  | o, x :: xs => (o, x) :: framesFrom size (o + size x) xs

/-- The frames with their offsets. -/
def frames (size : α → ℕ) (xs : List α) : List (ℕ × α) := framesFrom size 0 xs

theorem framesFrom_append :
    framesFrom size o (xs ++ ys) =
      framesFrom size o xs ++ framesFrom size (o + total size xs) ys := by
  induction xs generalizing o with
  | nil => simp [framesFrom]
  | cons x xs ih => simp [framesFrom, ih, Nat.add_assoc]

theorem mem_framesFrom_iff :
    (p, x) ∈ framesFrom size o xs ↔ ∃ o', At size xs o' x ∧ p = o + o' := by
  induction xs generalizing o with
  | nil => simp [framesFrom, not_at_nil]
  | cons y ys ih =>
    have hcons : y :: ys = [y] ++ ys := rfl
    rw [framesFrom, List.mem_cons, ih, hcons]
    constructor
    · rintro (h | ⟨o', h, rfl⟩)
      · obtain ⟨rfl, rfl⟩ := Prod.mk.inj h
        exact ⟨0, (at_total [] x []).append ys, rfl⟩
      · exact ⟨size y + o', at_append_iff.mpr (Or.inr ⟨o', h, by simp⟩), by omega⟩
    · rintro ⟨o', h, rfl⟩
      rcases at_append_iff.mp h with hy | ⟨o'', hys, rfl⟩
      · obtain ⟨rfl, rfl⟩ := at_singleton_iff.mp hy
        exact Or.inl rfl
      · exact Or.inr ⟨o'', hys, by simp [Nat.add_assoc]⟩

/-- `frames` lists exactly the frames, each at its offset. -/
theorem mem_frames_iff : (o, x) ∈ frames size xs ↔ At size xs o x := by
  simp [frames, mem_framesFrom_iff]

/-- The frames in front of the end of a prefix are those of the prefix. -/
theorem frames_filter_lt (hpos : ∀ z ∈ xs, 0 < size z) :
    (frames size (xs ++ ys)).filter (fun r => r.1 < total size xs) = frames size xs := by
  rw [frames, framesFrom_append, List.filter_append, List.filter_eq_self.mpr,
    List.filter_eq_nil_iff.mpr, List.append_nil, frames]
  · rintro ⟨p, z⟩ hz
    obtain ⟨o', -, rfl⟩ := mem_framesFrom_iff.mp hz
    simp
  · rintro ⟨p, z⟩ hz
    have hat := mem_frames_iff.mp hz
    have hend := hat.end_le
    have := hpos z hat.mem
    exact decide_eq_true (show p < total size xs by omega)

/-- Offsets ascend along the list. -/
theorem framesFrom_pairwise (hpos : ∀ z ∈ xs, 0 < size z) :
    (framesFrom size o xs).Pairwise fun a b => a.1 < b.1 := by
  induction xs generalizing o with
  | nil => exact List.Pairwise.nil
  | cons x xs ih =>
    refine List.Pairwise.cons ?_ (ih fun z hz => hpos z (List.mem_cons_of_mem _ hz))
    rintro ⟨p, z⟩ hp
    obtain ⟨o', -, rfl⟩ := mem_framesFrom_iff.mp hp
    have := hpos x List.mem_cons_self
    show o < o + size x + o'
    omega

end Framing
