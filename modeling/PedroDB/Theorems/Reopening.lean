import PedroDB.Reference
import PedroDB.Restart

/-!
# Closing and reopening

A database that is closed after any run of writes and compactions opens again, and every
key has its old value exactly if no compaction has dropped a tombstone that an older
record of the key has survived.

## Main results

* `Session.exists_newest` — the invariants at the end of a run
* `Session.valueOf_reopened_iff` — every key has its old value
* `Session.exists_lost` — a run whose last value is lost
-/

namespace PedroDB.Session

open Transition

section

variable [Platform] {opt : Options} {name : Bytes} {as : List Action} {s : Session} {L : Log}

/-- What holds at the end of a run that removes no file that is still needed. -/
theorem exists_newest (hmaintained : Guarded opt (Maintained opt) name as)
    (hreach : Reaches opt name as s) :
    ∃ L, Inv opt s L ∧ Newest s L ∧ s.db.fileManager.metadata.name = name := by
  obtain ⟨s₀, hs₀, hrun⟩ := hreach
  refine hrun.invariant
    (P := fun s => ∃ L, Inv opt s L ∧ Newest s L ∧ s.db.fileManager.metadata.name = name)
    (hmaintained s₀ hs₀) ⟨_, Inv.fresh hs₀, Newest.fresh hs₀, ?_⟩ ?_
  · rw [(fresh_db hs₀).1]
    exact MetadataManager.createFile_name
  · rintro t a u ⟨L, hinv, hnewest, hname⟩ ⟨hwithin, hremoval⟩ hstep
    obtain ⟨L', he⟩ := hinv.effect hwithin hstep
    exact ⟨L', hinv.step he hremoval, hnewest.step hinv he, he.name.trans hname⟩

/-- After any run of calls the database is closed and opens again. If the recovery sees
every live record, each key has its old value, and no other key appears, exactly if behind
every record that sets a deleted key there is still a tombstone. -/
theorem valueOf_reopened_iff (hmaintained : Guarded opt (Maintained opt) name as)
    (hreach : Reaches opt name as s) (hidle : s.Quiescent) (hname : name.length < 2 ^ 16)
    (hseen : s.db.Seen) (buffer : ReadBuffer) :
    ∃ db rest, DBImpl.openDb opt .sound name s.db.fileManager.disk buffer =
        some (.kOk, db, rest) ∧
      ((∀ key, db.valueOf key = s.db.valueOf key) ↔ s.db.Tombstoned) := by
  obtain ⟨L, hinv, hnewest, rfl⟩ := exists_newest hmaintained hreach
  obtain ⟨db, rest, hopen, hre, hmetadata, hreflects, hiff⟩ :=
    hinv.sound.exists_reopened opt s.db.fileManager.metadata.name buffer (hnewest.idle hidle) hname
  refine ⟨db, rest, hopen, fun hvalue => ?_, fun htomb key => ?_⟩
  · rintro loc e hread htype hfind
    have hnone : db.find e.key = none := by
      rw [← Option.not_isSome_iff_eq_none, ← hre.sound.valueOf_isSome, hvalue,
        hinv.sound.valueOf_isSome, hfind]
      simp
    obtain ⟨r, hr, hkey, hsets, hlt⟩ := hreflects.dead e.key hnone (loc, e) hread rfl htype
    have hloc : Located L r.1 r.2 := hinv.sound.holds.log_eq ▸ hr.2.1
    exact ⟨r.1, r.2, hr, hkey, (hinv.sound.storable hloc).type.resolve_left hsets, hlt⟩
  · have hsame := hiff.mpr ⟨hseen, htomb⟩ key
    rcases hfind : s.db.find key with _ | dir
    · simp only [DBImpl.valueOf, hsame, hfind, Option.bind_none]
    · obtain ⟨e, hloc, -⟩ := hinv.sound.pointed key dir hfind
      have hloc' : Located (L.restrict s.db.fileManager.metadata.files) dir.loc e :=
        located_restrict_iff.mpr ⟨hinv.sound.kept key dir hfind, hloc⟩
      rw [hinv.sound.valueOf_eq hfind hloc, hre.sound.valueOf_eq (hsame.trans hfind) hloc']

/-- Runs of accesses remove nothing. -/
theorem maintained_of_check {as : List Action} (haccess : ∀ a ∈ as, a.IsAccess)
    (hcheck : ((fresh opt name).map fun s => check (step opt) (Within opt) s as).getD true =
      true) : Guarded opt (Maintained opt) name as := by
  intro s₀ hs₀ pre a post t heq hpre
  exact ⟨guarded_of_check hcheck s₀ hs₀ pre a post t heq hpre,
    (haccess a (by simp [heq])).removal⟩

/-- As long as the only file is not full, the recovery sees every record. -/
theorem Inv.seen (h : Inv opt s L)
    (hfiles : s.db.fileManager.metadata.files = {s.db.fileManager.activeFileId})
    (hroom : s.db.fileManager.activeOffset < kMaxFileBytes) : s.db.Seen := by
  intro key dir hfind
  obtain ⟨e, hloc, -⟩ := h.sound.pointed key dir hfind
  have hmem := h.sound.kept key dir hfind
  have hid := hmem
  rw [hfiles, Finset.mem_singleton] at hid
  refine ⟨e, hmem, h.sound.holds.log_eq ▸ hloc, Or.inr ?_⟩
  refine hloc.end_le.trans_lt ?_
  rwa [hid, ← h.sound.holds.write]

end

open scoped Reference

/-- A key is put and deleted, another one is put. -/
def putDeletePut : List Action :=
  [.write (.put [107] [118]), .write (.delete [107]), .write (.put [108] [119])]

theorem valueOf_reopened_putDeletePut : ∃ s, Reaches Reference.options [] putDeletePut s ∧
    ∃ db rest, DBImpl.openDb Reference.options .sound [] s.db.fileManager.disk ReadBuffer.empty =
        some (.kOk, db, rest) ∧
      ((∀ key, db.valueOf key = s.db.valueOf key) ↔ s.db.Tombstoned) := by
  obtain ⟨s₀, hs₀, -⟩ := exists_fresh Reference.options []
  have hrun : (((fresh Reference.options []).bind fun s =>
      putDeletePut.foldlM (step Reference.options) s).map fun s =>
        decide (s.Quiescent ∧
          s.db.fileManager.metadata.files = {s.db.fileManager.activeFileId} ∧
          s.db.fileManager.activeOffset < kMaxFileBytes)) = some true := by decide +kernel
  rw [hs₀] at hrun
  obtain ⟨s, hs, htrue⟩ := Option.map_eq_some_iff.mp hrun
  obtain ⟨hidle, hfiles, hroom⟩ := of_decide_eq_true htrue
  have hmaintained : Guarded Reference.options (Maintained Reference.options) [] putDeletePut :=
    maintained_of_check (by decide) (by decide +kernel)
  obtain ⟨L, hinv, -⟩ := exists_newest hmaintained ⟨s₀, hs₀, hs⟩
  exact ⟨s, ⟨s₀, hs₀, hs⟩, valueOf_reopened_iff hmaintained ⟨s₀, hs₀, hs⟩ hidle (by decide)
    (hinv.seen hfiles hroom) ReadBuffer.empty⟩

/-- A key is put and deleted, `Compact()` removes the file, and another key is put. -/
def putDeleteCompactPut : List Action :=
  [.write (.put [107] [118]), .write (.delete [107]), .compact] ++ List.replicate 8 .block ++
    [.write (.put [108] [119])]

/-- The value of the last `Put` need not be there after the database is opened again. -/
theorem exists_lost : ∃ s db rest, Reaches Reference.options [] putDeleteCompactPut s ∧
    s.Quiescent ∧
    DBImpl.openDb Reference.options .sound [] s.db.fileManager.disk ReadBuffer.empty =
        some (.kOk, db, rest) ∧
      s.db.valueOf [108] = some [119] ∧ db.valueOf [108] = none := by
  obtain ⟨s₀, hs₀, -⟩ := exists_fresh Reference.options []
  have hrun : (((fresh Reference.options []).bind fun s =>
      putDeleteCompactPut.foldlM (step Reference.options) s).map fun s =>
        decide (s.Quiescent ∧ s.db.valueOf [108] = some [119] ∧
          ((DBImpl.openDb Reference.options .sound [] s.db.fileManager.disk
            ReadBuffer.empty).map fun r => (r.1, r.2.1.valueOf [108])) = some (.kOk, none))) =
        some true := by decide +kernel
  rw [hs₀] at hrun
  obtain ⟨s, hs, htrue⟩ := Option.map_eq_some_iff.mp hrun
  obtain ⟨hidle, hold, hopen⟩ := of_decide_eq_true htrue
  obtain ⟨⟨status, db, rest⟩, hopen, heq⟩ := Option.map_eq_some_iff.mp hopen
  obtain ⟨rfl, hnone⟩ := Prod.mk.inj heq
  exact ⟨s, db, rest, ⟨s₀, hs₀, hs⟩, hidle, hopen, hold, hnone⟩

end PedroDB.Session
