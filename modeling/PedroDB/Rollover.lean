import PedroDB.Files

/-!
# Appending, whatever the roll-overs find

`Append` may open several files before the record fits, one of them may not open, and after
file `2 ^ 32 - 1` comes file 0 again. In every case the files that exist keep their records.

## Main definitions

* `FileManager.Keeps` — the data files hold the records of a log
* `FileManager.Preserves` — files that exist stay, and keep their records

## Main results

* `FileManager.Keeps.appendLoop_cases` — the round of `Append` that returns
* `FileManager.Keeps.append_cases` — what `Append` leaves behind
-/

namespace PedroDB

open Framing

variable [Platform] {opens : OpenData} {fm fm' fm'' : FileManager} {L L' L'' : Log} {e x : Entry}
  {loc : Location} {status : Status} {fuel id : ℕ}

namespace FileManager

/-- The data files hold the records of the log and the active one is written behind its last
record, whatever has become of its index log. -/
def Keeps (fm : FileManager) (L : Log) : Prop :=
  ({ fm with activeIndexLog := some fm.activeFileId } : FileManager).Laid L

/-- Files that exist still do, and have kept their records. -/
structure Preserves (fm : FileManager) (L : Log) (fm' : FileManager) (L' : Log) : Prop where
  linked : ∀ j, (fm.dataFiles j).linked = true → (fm'.dataFiles j).linked = true
  grows : ∀ j, (fm.dataFiles j).linked = true → ∃ xs, L' j = L j ++ xs
  files : fm.metadata.files ⊆ fm'.metadata.files

namespace Preserves

omit [Platform]

theorem refl (fm : FileManager) (L : Log) : fm.Preserves L fm L :=
  ⟨fun _ h => h, fun _ _ => ⟨[], (List.append_nil _).symm⟩, Finset.Subset.refl _⟩

theorem trans (h : fm.Preserves L fm' L') (h' : fm'.Preserves L' fm'' L'') :
    fm.Preserves L fm'' L'' where
  linked j hj := h'.linked j (h.linked j hj)
  grows := by
    intro j hj
    obtain ⟨xs, hxs⟩ := h.grows j hj
    obtain ⟨ys, hys⟩ := h'.grows j (h.linked j hj)
    exact ⟨xs ++ ys, by rw [hys, hxs, List.append_assoc]⟩
  files := h.files.trans h'.files

/-- A record in a file that exists stays where it is. -/
theorem located (h : fm.Preserves L fm' L') (hlinked : (fm.dataFiles loc.id).linked = true)
    (hloc : Located L loc x) : Located L' loc x := by
  obtain ⟨xs, hxs⟩ := h.grows loc.id hlinked
  rw [Located, hxs]
  exact At.append hloc xs

end Preserves

theorem Laid.keeps (h : fm.Laid L) : fm.Keeps L := ⟨h.files, h.data, rfl, h.write⟩

omit [Platform] in
theorem scheduleSeal_fields (fm : FileManager) :
    fm.scheduleSeal.dataFiles = fm.dataFiles ∧ fm.scheduleSeal.metadata = fm.metadata ∧
      fm.scheduleSeal.activeDataFile = fm.activeDataFile ∧
      fm.scheduleSeal.activeFileId = fm.activeFileId := by
  unfold scheduleSeal
  split
  · exact ⟨rfl, rfl, rfl, rfl⟩
  · exact ⟨rfl, rfl, rfl, rfl⟩

namespace Keeps

/-- Only the data files and which of them is active matter. -/
theorem congr (h : fm.Keeps L) (hfiles : fm'.dataFiles = fm.dataFiles)
    (hdata : fm'.activeDataFile = fm.activeDataFile)
    (hid : fm'.activeFileId = fm.activeFileId) : fm'.Keeps L where
  files id := hfiles ▸ h.files id
  data := (hdata.trans h.data).trans (congrArg some hid.symm)
  log := rfl
  write := by
    have hwrite : (fm.dataFiles fm.activeFileId).writeIndex = totalSize (L fm.activeFileId) :=
      h.write
    simp only [activeOffset, hfiles, hid]
    exact hwrite

theorem scheduleSeal (h : fm.Keeps L) : fm.scheduleSeal.Keeps L := by
  obtain ⟨hfiles, -, hdata, hid⟩ := scheduleSeal_fields fm
  exact h.congr hfiles hdata hid

theorem capture_eq (h : fm.Keeps L) :
    fm.capture = ⟨fm.activeFileId, fm.activeFileId, fm.activeIndexLog⟩ := by
  have hdata : fm.activeDataFile = some fm.activeFileId := h.data
  simp [capture, hdata]

/-- Allocation in the active file, if there is room. -/
theorem allocatePack_cases (h : fm.Keeps L) (hs : e.Storable) :
    (fm.Fits e ∧ ∃ logs, allocatePack e fm.capture fm =
      some (⟨fm.activeFileId, fm.activeOffset⟩,
        { addRecord fm.activeFileId e fm with indexLogs := logs })) ∨
      (¬ fm.Fits e ∧ allocatePack e fm.capture fm = none) := by
  have hle : (fm.dataFiles fm.activeFileId).writeIndex ≤ kMaxFileBytes := h.activeOffset_le
  simp only [h.capture_eq, allocatePack, sub64_of_le hle, hs.sizeOf_eq, packInto_size hs,
    Option.getD_some]
  by_cases hfits : (fm.dataFiles fm.activeFileId).writeIndex + e.size ≤ kMaxFileBytes
  · refine Or.inl ⟨hfits, ?_⟩
    rw [if_neg (by omega)]
    simp only [FileManager.addRecord, hs.sizeOf_eq]
    exact ⟨_, rfl⟩
  · exact Or.inr ⟨hfits, if_pos (by omega)⟩

theorem addRecord (h : fm.Keeps L) (hs : e.Storable) (hfits : fm.Fits e) (logs : ℕ → Bytes) :
    ({ FileManager.addRecord fm.activeFileId e fm with indexLogs := logs } : FileManager).Keeps
      (L.add fm.activeFileId e) := by
  have hadd : ({ FileManager.addRecord fm.activeFileId e fm with
      activeIndexLog := some fm.activeFileId } : FileManager).Laid (L.add fm.activeFileId e) :=
    Laid.addRecord h hs hfits
  exact hadd.keeps.congr rfl rfl rfl

end Keeps

theorem addRecord_linked {fm : FileManager} (j : ℕ) (h : (fm.dataFiles j).linked = true) :
    ((FileManager.addRecord id e fm).dataFiles j).linked = true := by
  by_cases hj : j = id
  · subst hj
    simp only [FileManager.addRecord, Function.update_self]
    exact h
  · simp only [FileManager.addRecord, Function.update_of_ne hj]
    exact h

/-! ### Roll-overs -/

/-- Opening a file for writing. One that does not exist is made, and is empty. -/
theorem Keeps.openActive (h : fm.Keeps L) (id : ℕ) :
    ∃ L', (openActive id fm).Keeps L' ∧ fm.Preserves L (openActive id fm) L' ∧
      ((openActive id fm).dataFiles id).linked = true := by
  -- Both cases below differ only in the log that is kept.
  have hlaid : ∀ L', (∀ j ≠ id, L' j = L j) → (fm.opened id).Holds (L' id) →
      (∀ j, (fm.dataFiles j).linked = true → L' j = L j) →
      (FileManager.openActive id fm).Keeps L' ∧
        fm.Preserves L (FileManager.openActive id fm) L' ∧
        ((FileManager.openActive id fm).dataFiles id).linked = true := by
    intro L' hL' hopened hsame
    have hfiles : ∀ j ≠ id, (fm.dataFiles j).Holds (L' j) := fun j hj => hL' j hj ▸ h.files j
    refine ⟨(openActive_laid hfiles hopened).keeps, ⟨fun j hj => ?_, fun j hj => ?_, ?_⟩, ?_⟩
    · rw [openActive_eq hopened]
      by_cases hid : j = id
      · simp only [hid, Function.update_self]
      · simp only [Function.update_of_ne hid, hj]
    · exact ⟨[], by rw [hsame j hj, List.append_nil]⟩
    · rw [openActive_eq hopened, MetadataManager.createFile_files]
      exact Finset.subset_insert _ _
    · rw [openActive_eq hopened]
      simp only [Function.update_self]
  -- The file was there, and its records are found again.
  by_cases hlinked : (fm.dataFiles id).linked = true
  · refine ⟨L, hlaid L (fun _ _ => rfl) ?_ fun _ _ => rfl⟩
    rw [opened, if_pos hlinked]
    exact h.files id
  · -- The file is new, or has been removed before.
    refine ⟨Function.update L id [], hlaid _ (fun j hj => Function.update_of_ne hj ..) ?_ ?_⟩
    · rw [opened, if_neg hlinked, Function.update_self]
      exact absent_holds
    · intro j hj
      refine Function.update_of_ne (fun hid => ?_) ..
      exact hlinked (hid ▸ hj)

/-- A roll-over, whether or not the file opens. -/
theorem Keeps.rollOver (h : fm.Keeps L) (opens : OpenData) (c : Capture) :
    ∃ L', (rollOver opens c fm).2.Keeps L' ∧ fm.Preserves L (rollOver opens c fm).2 L' ∧
      (((fm.dataFiles fm.activeFileId).linked = true) →
        ((rollOver opens c fm).2.dataFiles (rollOver opens c fm).2.activeFileId).linked = true) := by
  obtain ⟨hfiles, hmetadata, -, hid⟩ := scheduleSeal_fields fm
  have hseal : fm.Preserves L fm.scheduleSeal L :=
    ⟨fun j hj => hfiles.symm ▸ hj, fun _ _ => ⟨[], (List.append_nil _).symm⟩, hmetadata ▸
      Finset.Subset.refl _⟩
  unfold FileManager.rollOver
  split_ifs with hother
  · exact ⟨L, h, .refl fm L, fun hlinked => hlinked⟩
  · unfold createFile
    split
    · obtain ⟨L', hkeeps, hpreserves, hlinked⟩ :=
        h.scheduleSeal.openActive (u32 (c.fileId + 1))
      exact ⟨L', hkeeps, hseal.trans hpreserves, fun _ => hlinked⟩
    · exact ⟨L, h.scheduleSeal, hseal, fun hlinked => by rw [hfiles, hid]; exact hlinked⟩

/-- The last round of `Append` allocates, or ends with a roll-over that fails. -/
theorem Keeps.appendLoop_cases (h : fm.Keeps L)
    (hloop : appendLoop opens e fuel fm = some (status, loc, fm')) :
    ∃ fm₁ L₁, fm₁.Keeps L₁ ∧ fm.Preserves L fm₁ L₁ ∧
      (((fm.dataFiles fm.activeFileId).linked = true) →
        (fm₁.dataFiles fm₁.activeFileId).linked = true) ∧
      (status = .kOk ∧ allocatePack e fm₁.capture fm₁ = some (loc, fm') ∨
        status ≠ .kOk ∧ fm' = fm₁) := by
  induction fuel generalizing fm L with
  | zero => simp [appendLoop] at hloop
  | succ fuel ih =>
    rw [appendLoop] at hloop
    split at hloop
    · -- The record is allocated.
      next l fm₂ hallocate =>
      simp only [Option.some.injEq, Prod.mk.injEq] at hloop
      obtain ⟨rfl, rfl, rfl⟩ := hloop
      exact ⟨fm, L, h, .refl fm L, fun hlinked => hlinked, Or.inl ⟨rfl, hallocate⟩⟩
    · obtain ⟨L', hkeeps, hpreserves, hlinked⟩ := h.rollOver opens fm.capture
      split at hloop
      · -- The loop goes on behind the roll-over.
        next fm₂ heq =>
        rw [heq] at hkeeps hpreserves hlinked
        obtain ⟨fm₁, L₁, hkeeps₁, hpreserves₁, hlinked₁, hcases⟩ := ih hkeeps hloop
        exact ⟨fm₁, L₁, hkeeps₁, hpreserves.trans hpreserves₁, fun h => hlinked₁ (hlinked h),
          hcases⟩
      · -- The roll-over fails, and so does the append.
        next st fm₂ hne heq =>
        simp only [Option.some.injEq, Prod.mk.injEq] at hloop
        obtain ⟨rfl, -, rfl⟩ := hloop
        rw [heq] at hkeeps hpreserves hlinked
        exact ⟨fm₂, L', hkeeps, hpreserves, hlinked, Or.inr ⟨hne, rfl⟩⟩

/-- What `Append` leaves behind: the record in the active file, or no new record. -/
theorem Keeps.append_cases (h : fm.Keeps L) (hs : e.Storable)
    (hactive : (fm.dataFiles fm.activeFileId).linked = true)
    (happend : fm.append opens e = some (status, loc, fm')) :
    ∃ L', fm'.Keeps L' ∧ fm.Preserves L fm' L' ∧
      (fm'.dataFiles fm'.activeFileId).linked = true ∧
      (status = .kOk → Located L' loc e ∧ (fm'.dataFiles loc.id).linked = true) := by
  obtain ⟨fm₁, L₁, hkeeps, hpreserves, hlinked, hcases⟩ := h.appendLoop_cases happend
  have hactive₁ := hlinked hactive
  rcases hcases with ⟨rfl, hallocate⟩ | ⟨hne, rfl⟩
  · rcases hkeeps.allocatePack_cases hs with ⟨hfits, logs, heq⟩ | ⟨-, heq⟩
    · rw [heq, Option.some.injEq, Prod.mk.injEq] at hallocate
      obtain ⟨rfl, rfl⟩ := hallocate
      have hloc : (⟨fm₁.activeFileId, fm₁.activeOffset⟩ : Location) =
          L₁.endOf fm₁.activeFileId := congrArg (Location.mk fm₁.activeFileId) hkeeps.write
      have hadded : ((FileManager.addRecord fm₁.activeFileId e fm₁).dataFiles
          fm₁.activeFileId).linked = true :=
        addRecord_linked fm₁.activeFileId hactive₁
      refine ⟨L₁.add fm₁.activeFileId e, hkeeps.addRecord hs hfits logs, hpreserves.trans ?_,
        hadded, fun _ => ⟨hloc ▸ located_endOf L₁ fm₁.activeFileId e, hadded⟩⟩
      exact ⟨fun j hj => addRecord_linked j hj, fun j _ => Log.add_grows j,
        Finset.Subset.refl _⟩
    · rw [heq] at hallocate
      cases hallocate
  · exact ⟨L₁, hkeeps, hpreserves, hactive₁, fun hok => absurd hok hne⟩

end FileManager

end PedroDB
