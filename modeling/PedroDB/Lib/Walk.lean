import Mathlib.Data.List.Basic

/-!
# Walking over content that nobody vouches for

A reader finds frames in content that may be anything: at each position either a frame
starts, whose length the content itself tells, or the reader stops. A loop may compute the
length wrongly; this file says what it reports as long as it does not, and how to tell from
its reports that it did not.

## Main definitions

* `Walk` — where frames start, how long they are, and what they hold
* `Walk.Reached` — the positions that frames laid end to end lead to
* `Walk.IsLoop` — a loop that follows the walk where the lengths are sound

## Main results

* `IsLoop.reports` — the loop reports frames of the walk, in ascending order
* `IsLoop.stable` — the loop ends
* `IsLoop.sound_of_reports` — a loop whose reports stay inside met sound lengths only
-/

variable {ε : Type*}

/-- Frames in some content. -/
structure Walk (ε : Type*) where
  starts : ℕ → Prop
  size : ℕ → ℕ
  item : ℕ → ε
  size_pos : ∀ o, 0 < size o

namespace Walk

variable {W : Walk ε} {sound : ℕ → Prop} {R : ℕ → ℕ → List (ℕ × ε) → Prop}
  {fuel fuel' k o limit : ℕ} {l l' : List (ℕ × ε)}

/-- Frames laid end to end from the front lead to this position. -/
inductive Reached (W : Walk ε) : ℕ → Prop
  | start : Reached W 0
  | step {o : ℕ} : Reached W o → W.starts o → Reached W (o + W.size o)

/-- `R fuel o l` says that the loop reports `l` from position `o` on. It stops where no frame
starts, and reports the frame and goes on behind it where its length is sound. -/
structure IsLoop (W : Walk ε) (sound : ℕ → Prop) (R : ℕ → ℕ → List (ℕ × ε) → Prop) : Prop where
  zero : ∀ {o l}, R 0 o l → l = []
  stop : ∀ {fuel o l}, R (fuel + 1) o l → ¬ W.starts o → l = []
  step : ∀ {fuel o l}, R (fuel + 1) o l → W.starts o → sound o →
    ∃ l', l = (o, W.item o) :: l' ∧ R fuel (o + W.size o) l'

namespace IsLoop

/-- Where all lengths are sound, the loop reports frames of the walk, in ascending order. -/
theorem reports (h : W.IsLoop sound R) (hsound : ∀ o, W.Reached o → W.starts o → sound o)
    (hR : R fuel o l) (ho : W.Reached o) :
    (∀ r ∈ l, o ≤ r.1 ∧ W.Reached r.1 ∧ W.starts r.1 ∧ r.2 = W.item r.1) ∧
      l.Pairwise fun a b => a.1 < b.1 := by
  induction fuel generalizing o l with
  | zero =>
    obtain rfl := h.zero hR
    exact ⟨by simp, List.Pairwise.nil⟩
  | succ fuel ih =>
    by_cases hstarts : W.starts o
    · obtain ⟨l', rfl, hR'⟩ := h.step hR hstarts (hsound o ho hstarts)
      obtain ⟨hl', hpair⟩ := ih hR' (ho.step hstarts)
      have hpos := W.size_pos o
      constructor
      · intro r hr
        rcases List.mem_cons.mp hr with rfl | hr
        · exact ⟨Nat.le_refl _, ho, hstarts, rfl⟩
        · obtain ⟨hle, hrest⟩ := hl' r hr
          exact ⟨by omega, hrest⟩
      · refine List.pairwise_cons.mpr ⟨fun r hr => ?_, hpair⟩
        have := (hl' r hr).1
        dsimp only
        omega
    · obtain rfl := h.stop hR hstarts
      exact ⟨by simp, List.Pairwise.nil⟩

/-- Where all lengths are sound and all frames end in front of `limit`, more rounds find no
more. -/
theorem stable (h : W.IsLoop sound R) (hsound : ∀ o, W.Reached o → W.starts o → sound o)
    (hlimit : ∀ o, W.starts o → sound o → o + W.size o ≤ limit) (ho : W.Reached o)
    (hR : R fuel o l) (hR' : R fuel' o l') (hfuel : limit < o + fuel)
    (hfuel' : limit < o + fuel') : l = l' := by
  induction fuel generalizing fuel' o l l' with
  | zero =>
    obtain rfl := h.zero hR
    cases fuel' with
    | zero => exact (h.zero hR').symm
    | succ fuel' =>
      -- A frame that starts here would end behind the limit.
      refine (h.stop hR' fun hstarts => ?_).symm
      have := hlimit o hstarts (hsound o ho hstarts)
      omega
  | succ fuel ih =>
    by_cases hstarts : W.starts o
    · have hs := hsound o ho hstarts
      have hend := hlimit o hstarts hs
      have hpos := W.size_pos o
      obtain ⟨rest, rfl, hrest⟩ := h.step hR hstarts hs
      cases fuel' with
      | zero => omega
      | succ fuel' =>
        obtain ⟨rest', rfl, hrest'⟩ := h.step hR' hstarts hs
        rw [ih (ho.step hstarts) hrest hrest' (by omega) (by omega)]
    · -- No frame starts here, and both runs stop.
      obtain rfl := h.stop hR hstarts
      cases fuel' with
      | zero => exact (h.zero hR').symm
      | succ fuel' => exact (h.stop hR' hstarts).symm

/-- If the loop reports every frame that starts where it stands, and nothing that the reports
of whole runs are known to satisfy allows an unsound length, then all lengths are sound. -/
theorem sound_of_reports {L : ℕ → List (ℕ × ε)} (measure : ε → ℕ) (h : W.IsLoop sound R)
    (hR : ∀ fuel, R fuel 0 (L fuel))
    (hhead : ∀ fuel o l, R (fuel + 1) o l → W.starts o →
      ∃ e l', l = (o, e) :: l' ∧ measure e = W.size o)
    (hinside : ∀ fuel, ∀ r ∈ L fuel, W.starts r.1 → measure r.2 = W.size r.1 → sound r.1) :
    ∀ o, W.Reached o → W.starts o → sound o := by
  -- What every fuel reports at the position is a report of the whole run.
  have hreport : ∀ {k o}, (∀ fuel, ∃ l, R fuel o l ∧ l ⊆ L (fuel + k)) → W.starts o →
      sound o := by
    intro k o hreach hstarts
    obtain ⟨l, hl, hsub⟩ := hreach 1
    obtain ⟨e, l', rfl, hsize⟩ := hhead 0 o l hl hstarts
    exact hinside (1 + k) (o, e) (hsub List.mem_cons_self) hstarts hsize
  -- The reports from a reached position on are among those of a longer run from the front.
  have hreach : ∀ o, W.Reached o → ∃ k, ∀ fuel, ∃ l, R fuel o l ∧ l ⊆ L (fuel + k) := by
    intro o ho
    induction ho with
    | start => exact ⟨0, fun fuel => ⟨L fuel, hR fuel, List.Subset.refl _⟩⟩
    | step ho hstarts ih =>
      obtain ⟨k, hk⟩ := ih
      refine ⟨k + 1, fun fuel => ?_⟩
      obtain ⟨l, hl, hsub⟩ := hk (fuel + 1)
      obtain ⟨l', rfl, hl'⟩ := h.step hl hstarts (hreport hk hstarts)
      refine ⟨l', hl', fun r hr => ?_⟩
      have := hsub (List.mem_cons_of_mem _ hr)
      rwa [Nat.add_right_comm] at this
  intro o ho hstarts
  obtain ⟨k, hk⟩ := hreach o ho
  exact hreport hk hstarts

end IsLoop

end Walk
