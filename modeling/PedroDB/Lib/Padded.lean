import Mathlib.Data.List.TakeDrop
import Mathlib.Tactic.Linarith

/-!
# Padded contents

A region of memory or of a file is a function from positions to values: what was
never written holds a default. This file relates such contents to the finite lists
that were written into them.

## Main definitions

* `Padded.ofList` — the content a list spells out, followed by the default forever
* `Padded.read` — the elements of a content between two positions
* `Padded.write` — a content after a list was copied into it
* `Padded.keep` — a list of which only a prefix was copied

## Main results

* `read_append` — adjacent reads join
* `write_ofList_length` — writing right behind a list appends to it
* `read_ofList_middle` — a part of the list is read back where it stands
-/

namespace Padded

variable {α : Type*} {d : α} {f g : ℕ → α} {xs ys zs : List α} {i m n off : ℕ}

/-- The content a list spells out, followed by the default forever. -/
def ofList (d : α) (xs : List α) : ℕ → α := fun i => xs[i]?.getD d

/-- The `n` elements of a content from position `off` on. -/
def read (f : ℕ → α) (off n : ℕ) : List α := (List.range n).map fun i => f (off + i)

/-- A content after `xs` was copied to position `off`. -/
def write (f : ℕ → α) (off : ℕ) (xs : List α) : ℕ → α := fun i =>
  if off ≤ i ∧ i < off + xs.length then xs[i - off]?.getD (f i) else f i

@[simp] theorem ofList_nil : ofList d [] = fun _ => d := by
  funext i
  simp [ofList]

theorem ofList_of_lt (h : i < xs.length) : ofList d xs i = xs[i] := by
  simp [ofList, h]

theorem ofList_of_length_le (h : xs.length ≤ i) : ofList d xs i = d := by
  simp [ofList, h]

theorem ofList_append_left (h : i < xs.length) : ofList d (xs ++ ys) i = ofList d xs i := by
  simp only [ofList, List.getElem?_append_left h]

theorem ofList_append_right : ofList d (xs ++ ys) (xs.length + i) = ofList d ys i := by
  simp only [ofList]
  rw [List.getElem?_append_right (by omega)]
  simp

/-- Trailing defaults say nothing. -/
theorem ofList_append_replicate : ofList d (xs ++ List.replicate n d) = ofList d xs := by
  funext i
  by_cases h : i < xs.length
  · exact ofList_append_left h
  · obtain ⟨j, rfl⟩ := Nat.exists_eq_add_of_le (Nat.not_lt.mp h)
    rw [ofList_append_right, ofList_of_length_le (Nat.le_add_right _ _)]
    by_cases hj : j < n <;> simp [ofList, hj]

@[simp] theorem length_read : (read f off n).length = n := by
  simp [read]

@[simp] theorem read_zero : read f off 0 = [] := rfl

theorem read_congr (h : ∀ i < n, f (off + i) = g (off + i)) : read f off n = read g off n := by
  apply List.map_congr_left
  intro i hi
  exact h i (List.mem_range.mp hi)

/-- Adjacent reads join. -/
theorem read_append : read f off (m + n) = read f off m ++ read f (off + m) n := by
  simp only [read, List.range_add, List.map_append, List.map_map]
  congr 1
  apply List.map_congr_left
  intro i _
  simp [Nat.add_assoc]

theorem getElem_read (h : i < (read f off n).length) : (read f off n)[i] = f (off + i) := by
  simp [read]

theorem read_ofList_prefix : read (ofList d (xs ++ ys)) 0 xs.length = xs := by
  apply List.ext_getElem (by simp)
  intro i h _
  have hi : i < xs.length := by simpa using h
  rw [getElem_read, Nat.zero_add, ofList_append_left hi, ofList_of_lt hi]

/-- A part of the list is read back where it stands. -/
theorem read_ofList_middle (hoff : xs.length = off) (hn : ys.length = n) :
    read (ofList d (xs ++ ys ++ zs)) off n = ys := by
  subst hoff hn
  have hshift : read (ofList d (xs ++ ys ++ zs)) xs.length ys.length
      = read (ofList d (ys ++ zs)) 0 ys.length := by
    apply List.map_congr_left
    intro i _
    rw [List.append_assoc, ofList_append_right, Nat.zero_add]
  rw [hshift, read_ofList_prefix]

/-- The read-back of a content's first elements spells out what they hold. -/
theorem ofList_read (h : i < n) : ofList d (read f off n) i = f (off + i) := by
  rw [ofList_of_lt (by simpa using h), getElem_read]

/-- A read inside a snapshot is a read of the content it was taken from. -/
theorem read_ofList_read (h : m + n ≤ i) :
    read (ofList d (read f off i)) m n = read f (off + m) n := by
  apply List.map_congr_left
  intro j hj
  have := List.mem_range.mp hj
  rw [ofList_read (by omega), Nat.add_assoc]

theorem write_of_lt (h : i < off) : write f off xs i = f i := by
  rw [write, if_neg (by omega)]

theorem write_of_le (h : off + xs.length ≤ i) : write f off xs i = f i := by
  rw [write, if_neg (by omega)]

theorem write_add (h : i < xs.length) : write f off xs (off + i) = xs[i] := by
  rw [write, if_pos ⟨by omega, by omega⟩]
  simp [h]

/-- Writing right behind a list appends to it. -/
theorem write_ofList_length : write (ofList d xs) xs.length ys = ofList d (xs ++ ys) := by
  funext i
  rcases Nat.lt_or_ge i xs.length with h | h
  · rw [write_of_lt h, ofList_append_left h]
  · obtain ⟨j, rfl⟩ := Nat.exists_eq_add_of_le h
    rw [ofList_append_right]
    rcases Nat.lt_or_ge j ys.length with hj | hj
    · rw [write_add hj, ofList_of_lt hj]
    · rw [write_of_le (by omega), ofList_of_length_le (by omega), ofList_of_length_le hj]

/-! ### Prefixes -/

/-- The first `n` elements of a list, and defaults in place of the others. -/
def keep (d : α) (n : ℕ) (xs : List α) : List α :=
  xs.take n ++ List.replicate (xs.length - n) d

@[simp] theorem length_keep : (keep d n xs).length = xs.length := by
  simp only [keep, List.length_append, List.length_take, List.length_replicate]
  omega

@[simp] theorem keep_nil : keep d n [] = [] := by
  simp [keep]

theorem keep_zero : keep d 0 xs = List.replicate xs.length d := by
  simp [keep]

theorem keep_of_length_le (h : xs.length ≤ n) : keep d n xs = xs := by
  simp [keep, List.take_of_length_le h, Nat.sub_eq_zero_of_le h]

theorem keep_append : keep d n (xs ++ ys) = keep d n xs ++ keep d (n - xs.length) ys := by
  rcases Nat.le_total n xs.length with h | h
  · -- The cut is inside the first list, and the second one is lost.
    have hlen : (xs ++ ys).length - n = (xs.length - n) + ys.length := by
      rw [List.length_append]
      omega
    rw [keep, hlen, List.take_append_of_le_length h, Nat.sub_eq_zero_of_le h, keep_zero, keep,
      ← List.replicate_append_replicate, List.append_assoc]
  · rw [keep_of_length_le h, keep, keep, List.take_append, List.take_of_length_le h,
      List.append_assoc, List.length_append]
    congr 3
    omega

/-- Writing a prefix right behind a list appends it and defaults. -/
theorem write_ofList_take :
    write (ofList d xs) xs.length (ys.take n) = ofList d (xs ++ keep d n ys) := by
  rw [write_ofList_length, keep, ← List.append_assoc, ofList_append_replicate]

end Padded
