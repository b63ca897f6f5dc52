import PedroDB.Lib.Transition
import PedroDB.Reference
import PedroDB.Session

/-!
# A roll-over that fails

`CreateFile` hands the index log of the active file to a background task before it knows
that the new file opens. When it does not open, the old file stays active without a log.

## Main definitions

* `FileManager.Undisturbed` — the active file is still written and logged

## Main results

* `FileManager.createFile_of_ne` — what a failed `CreateFile` leaves behind
* `FileManager.undisturbed_iff` — when that makes no difference
-/

namespace PedroDB.FileManager

open Transition

section

variable [Platform] {opens : OpenData} {fm fm' : FileManager} {status : Status} {id : ℕ}
  {e : Entry}

/-- Whatever tasks run next, a record that fits is appended to the active file, and listed
in the index log of that file. -/
def Appends (fm : FileManager) : Prop :=
  ∀ tasks fm₁, Run (fun fm i => fm.runTask i) fm tasks fm₁ →
    ∀ opens e, e.Storable → fm₁.Fits e → ∃ loc fm₂, fm₁.append opens e = some (.kOk, loc, fm₂) ∧
      loc.id = fm.activeFileId ∧
      fm₂.indexLogs fm.activeFileId =
        fm₁.indexLogs fm.activeFileId ++ (IndexEntry.ofRecord loc.offset e).pack

/-- The active file is what it was, no index file is written or going to be written for it,
and records are still appended to it and logged. -/
structure Undisturbed (fm fm' : FileManager) : Prop where
  data : fm'.activeDataFile = fm.activeDataFile
  id : fm'.activeFileId = fm.activeFileId
  log : fm'.activeIndexLog = fm.activeIndexLog
  index : fm'.indexFiles = fm.indexFiles ∧
    fm'.tasks.count (.createIndexFile fm.activeFileId) =
      fm.tasks.count (.createIndexFile fm.activeFileId)
  appends : fm'.Appends

omit [Platform] in
/-- Tasks do not touch the active file. -/
theorem activeOffset_of_run {tasks : List ℕ} (hrun : Run (fun fm i => fm.runTask i) fm tasks fm') :
    fm'.activeOffset = fm.activeOffset :=
  hrun.invariant (g := fun _ _ => True) (P := fun fm' => fm'.activeOffset = fm.activeOffset)
    (fun _ _ _ _ _ _ => trivial) rfl fun fm₁ i fm₂ hoffset _ hstep => by
      obtain ⟨tasks, indexFiles, rfl⟩ := runTask_eq hstep
      exact hoffset

/-- What a failed `CreateFile` leaves behind: the file stays active, its log is gone. -/
theorem createFile_of_ne (hactive : fm.activeDataFile = some fm.activeFileId)
    (hcreate : createFile opens id fm = (status, fm')) (hne : status ≠ .kOk) :
    fm' = { fm with
      activeIndexLog := none
      tasks := fm.tasks ++ Task.syncFile fm.activeFileId ::
        if fm.activeIndexLog = none then [] else [Task.createIndexFile fm.activeFileId] } := by
  unfold createFile at hcreate
  split at hcreate
  · exact absurd (congrArg Prod.fst hcreate).symm hne
  · obtain rfl := congrArg Prod.snd hcreate
    simp only [scheduleSeal, hactive]
    cases fm.activeIndexLog <;> rfl

/-- A record that fits is appended without a log, and so listed nowhere. -/
theorem append_of_log_eq_none (opens : OpenData)
    (hactive : fm.activeDataFile = some fm.activeFileId) (hlog : fm.activeIndexLog = none)
    (hs : e.Storable) (hfits : fm.Fits e) :
    ∃ loc fm', fm.append opens e = some (.kOk, loc, fm') ∧ fm'.indexLogs = fm.indexLogs := by
  have hfits' : (fm.dataFiles fm.activeFileId).writeIndex + e.size ≤ kMaxFileBytes := hfits
  have hle : (fm.dataFiles fm.activeFileId).writeIndex ≤ kMaxFileBytes := by omega
  have hcapture : fm.capture = ⟨fm.activeFileId, fm.activeFileId, none⟩ := by
    rw [capture, hactive, hlog, Option.getD_some]
  rw [append, appendLoop, hcapture, allocatePack]
  dsimp only
  rw [sub64_of_le hle, hs.sizeOf_eq, if_neg (by omega)]
  exact ⟨_, _, rfl, rfl⟩

/-- The smallest record. -/
def smallest : Entry := ⟨0, .kDelete, [], [], 0⟩

omit [Platform] in
theorem smallest_storable : smallest.Storable := by decide

/-- A failed `CreateFile` leaves the file manager as it was exactly if the index log was gone
before and the active file has no room for another record. -/
theorem undisturbed_iff (hactive : fm.activeDataFile = some fm.activeFileId)
    (hcreate : createFile opens id fm = (status, fm')) (hne : status ≠ .kOk) :
    fm.Undisturbed fm' ↔
      fm.activeIndexLog = none ∧ kMaxFileBytes < fm.activeOffset + Header.sizeOf := by
  have hfm' := createFile_of_ne hactive hcreate hne
  have hactive' : fm'.activeDataFile = some fm'.activeFileId := by
    rw [hfm']
    exact hactive
  have hlog' : fm'.activeIndexLog = none := by rw [hfm']
  have hoffset' : fm'.activeOffset = fm.activeOffset := by
    rw [hfm']
    rfl
  constructor
  · -- Forwards: a log that is closed loses the next record.
    intro h
    refine ⟨h.log.symm.trans hlog', Nat.lt_of_not_le fun hroom => ?_⟩
    have hfits : fm'.Fits smallest := by
      rw [Fits, hoffset']
      exact hroom
    -- The smallest record fits, and is not listed.
    obtain ⟨loc, fm₂, happend, -, hlisted⟩ :=
      h.appends [] _ (run_nil.mpr rfl) .sound smallest smallest_storable hfits
    obtain ⟨loc', fm₂', happend', hsame⟩ :=
      append_of_log_eq_none .sound hactive' hlog' smallest_storable hfits
    rw [happend', Option.some.injEq, Prod.mk.injEq, Prod.mk.injEq] at happend
    obtain ⟨-, -, rfl⟩ := happend
    rw [hsame] at hlisted
    have hempty := List.self_eq_append_right.mp hlisted
    cases hempty
  · -- Backwards: no record fits, so none is lost.
    rintro ⟨hlog, hfull⟩
    refine ⟨?_, ?_, hlog'.trans hlog.symm, ?_, ?_⟩
    · rw [hfm']
    · rw [hfm']
    · simp [hfm', hlog]
    · intro tasks fm₁ hrun opens e hs hfits
      have hoffset : fm₁.activeOffset = fm.activeOffset :=
        (activeOffset_of_run hrun).trans hoffset'
      have hsize := e.headerSize_le_size
      rw [Fits, hoffset] at hfits
      omega

end

open scoped Reference

/-- The device fails every open. -/
def failing : OpenData := fun _ => .kIOError

theorem undisturbed_iff_new :
    (createFile failing 2 (Session.newFiles Reference.options [])).1 ≠ .kOk ∧
      ((Session.newFiles Reference.options []).Undisturbed
          (createFile failing 2 (Session.newFiles Reference.options [])).2 ↔
        (Session.newFiles Reference.options []).activeIndexLog = none ∧
          kMaxFileBytes < (Session.newFiles Reference.options []).activeOffset +
            Header.sizeOf) := by
  have hne : (createFile failing 2 (Session.newFiles Reference.options [])).1 ≠ .kOk := by decide
  exact ⟨hne, undisturbed_iff rfl (Prod.mk.eta ..).symm hne⟩

/-- On a new database the roll-over to file 2 fails, and file 1 stays active without a log. -/
theorem exists_disturbed : ∃ fm fm' : FileManager, fm.activeDataFile = some fm.activeFileId ∧
    createFile failing 2 fm = (.kIOError, fm') ∧ ¬ fm.Undisturbed fm' := by
  refine ⟨Session.newFiles Reference.options [], _, rfl, rfl, fun h => ?_⟩
  cases h.log

end PedroDB.FileManager
