import PedroDB.Records

/-!
# What `Append` does

The active file either has room for the record, or it is sealed and a new file takes
the record at its beginning. `Append` is described by the location it returns and by
the file manager it leaves behind; from there on no proof unfolds it.

## Main definitions

* `FileManager.Fits`, `nextLoc`, `appended` — the outcome of `Append`
* `FileManager.Wraps`, `FileManager.Fills` — the two roll-over conditions that go wrong
* `Log`, `Log.add`, `Located` — the records of all data files
* `FileManager.Holds` — the data files hold the records of a log
* `FileManager.Indexed`, `FileManager.Registered` — what is kept about the files

## Main results

* `Holds.append_eq` — `Append` returns, with this outcome
* `Holds.appended`, `Indexed.appended`, `Registered.appended` — the outcome holds the
  log with the record added
-/

namespace PedroDB

open Framing

/-- The records of every data file. -/
abbrev Log := ℕ → List Entry

namespace Log

/-- The log after a record was appended to file `id`. -/
def add (L : Log) (id : ℕ) (e : Entry) : Log := Function.update L id (L id ++ [e])

/-- The location behind the last record of file `id`. -/
def endOf (L : Log) (id : ℕ) : Location := ⟨id, totalSize (L id)⟩

end Log

/-- Record `e` stands at location `loc`. -/
def Located (L : Log) (loc : Location) (e : Entry) : Prop := RecordAt (L loc.id) loc.offset e

section Located

variable {L : Log} {loc : Location} {e x y : Entry} {id : ℕ}

theorem Located.unique (h : Located L loc x) (h' : Located L loc y) : x = y :=
  RecordAt.unique h h'

/-- Appending a record adds it at the end of its file and moves no other. -/
theorem located_add_iff :
    Located (L.add id e) loc x ↔ Located L loc x ∨ loc = L.endOf id ∧ x = e := by
  by_cases h : loc.id = id
  · subst h
    simp only [Located, Log.add, Function.update_self, RecordAt, at_concat_iff, Log.endOf,
      Location.ext_iff, true_and]
  · simp only [Located, Log.add, Function.update_of_ne h, Log.endOf, Location.ext_iff, h,
      false_and, or_false]

theorem Located.add (h : Located L loc x) (id : ℕ) (e : Entry) : Located (L.add id e) loc x :=
  located_add_iff.mpr (Or.inl h)

theorem Log.add_grows (j : ℕ) : ∃ xs, L.add id e j = L j ++ xs := by
  by_cases hj : j = id
  · subst hj
    exact ⟨[e], by rw [Log.add, Function.update_self]⟩
  · exact ⟨[], by rw [Log.add, Function.update_of_ne hj, List.append_nil]⟩

theorem located_endOf (L : Log) (id : ℕ) (e : Entry) : Located (L.add id e) (L.endOf id) e :=
  located_add_iff.mpr (Or.inr ⟨rfl, rfl⟩)

theorem Located.end_le (h : Located L loc x) : loc.offset + x.size ≤ totalSize (L loc.id) :=
  RecordAt.end_le h

theorem Located.mem (h : Located L loc x) : x ∈ L loc.id := At.mem h

/-- A record stands in front of the end of its file and of every later one. -/
theorem Located.lt_endOf (h : Located L loc x) (hid : loc.id ≤ id) : loc < L.endOf id := by
  have hend := h.end_le
  have := x.size_pos
  rw [Location.lt_iff]
  rcases Nat.lt_or_ge loc.id id with hlt | hge
  · exact Or.inl hlt
  · have heq : loc.id = id := Nat.le_antisymm hid hge
    refine Or.inr ⟨heq, ?_⟩
    simp only [Log.endOf, ← heq]
    omega

end Located

namespace FileManager

variable [Platform] {fm : FileManager} {L : Log} {e : Entry} {id : ℕ}

/-- Where the next record of the active file would go. -/
def activeOffset (fm : FileManager) : ℕ := (fm.dataFiles fm.activeFileId).writeIndex

/-- The active file has room for the record. -/
def Fits (fm : FileManager) (e : Entry) : Prop := fm.activeOffset + e.size ≤ kMaxFileBytes

instance (fm : FileManager) (e : Entry) : Decidable (fm.Fits e) :=
  inferInstanceAs (Decidable (_ ≤ _))

/-- The location that `Append` returns. -/
def nextLoc (fm : FileManager) (e : Entry) : Location :=
  if fm.Fits e then ⟨fm.activeFileId, fm.activeOffset⟩ else ⟨fm.activeFileId + 1, 0⟩

/-- The record ends exactly at the end of the file it is appended to. -/
def Fills (fm : FileManager) (e : Entry) : Prop :=
  (fm.nextLoc e).offset + e.size = kMaxFileBytes

instance (fm : FileManager) (e : Entry) : Decidable (fm.Fills e) :=
  inferInstanceAs (Decidable (_ = _))

/-- The record needs a new file, and there is no 32-bit file id left for it. -/
def Wraps (fm : FileManager) (e : Entry) : Prop :=
  ¬ fm.Fits e ∧ 2 ^ 32 ≤ fm.activeFileId + 1

instance (fm : FileManager) (e : Entry) : Decidable (fm.Wraps e) :=
  inferInstanceAs (Decidable (_ ∧ _))

/-- A record packed behind the last one of file `id`, and logged. -/
def addRecord (id : ℕ) (e : Entry) (fm : FileManager) : FileManager :=
  { fm with
    dataFiles := Function.update fm.dataFiles id
      { fm.dataFiles id with
        data := Padded.write (fm.dataFiles id).data (fm.dataFiles id).writeIndex e.pack
        writeIndex := (fm.dataFiles id).writeIndex + e.sizeOf }
    indexLogs := Function.update fm.indexLogs id
      (fm.indexLogs id ++ (IndexEntry.ofRecord (fm.dataFiles id).writeIndex e).pack) }

/-- The active file sealed, and an empty one made active. -/
def rolled (fm : FileManager) : FileManager :=
  { fm with
    metadata := (fm.metadata.createFile .sound (fm.activeFileId + 1)).2
    activeIndexLog := some (fm.activeFileId + 1)
    activeDataFile := some (fm.activeFileId + 1)
    activeFileId := fm.activeFileId + 1
    dataFiles := Function.update fm.dataFiles (fm.activeFileId + 1)
      { DataFile.absent with linked := true }
    indexLogs := Function.update fm.indexLogs (fm.activeFileId + 1) []
    tasks := fm.tasks ++ [Task.syncFile fm.activeFileId, Task.createIndexFile fm.activeFileId] }

/-- The file manager that `Append` leaves behind. -/
def appended (fm : FileManager) (e : Entry) : FileManager :=
  if fm.Fits e then addRecord fm.activeFileId e fm
  else addRecord (fm.activeFileId + 1) e fm.rolled

/-- The data files hold the records of the log, and the active one is written behind its
last record. -/
structure Laid (fm : FileManager) (L : Log) : Prop where
  files : ∀ id, (fm.dataFiles id).Holds (L id)
  data : fm.activeDataFile = some fm.activeFileId
  log : fm.activeIndexLog = some fm.activeFileId
  write : fm.activeOffset = totalSize (L fm.activeFileId)

/-- The data files hold the records of the log, and the active one is the last. -/
structure Holds (fm : FileManager) (L : Log) : Prop extends fm.Laid L where
  fresh : ∀ id, fm.activeFileId < id → (fm.dataFiles id).linked = false ∧ L id = []

/-- No record is behind the active file. -/
theorem Holds.id_le_active {loc : Location} (h : fm.Holds L) (hloc : Located L loc e) :
    loc.id ≤ fm.activeFileId := by
  by_contra hlt
  have hempty := (h.fresh loc.id (not_le.mp hlt)).2
  have hmem := hloc.mem
  rw [hempty] at hmem
  exact List.not_mem_nil hmem

theorem packInto_size (hs : e.Storable) : e.packInto e.size = some e.pack :=
  Entry.packInto_of_le hs.sizeOf_eq.le Entry.headerSize_le_size

/-- Allocation on a captured file, in the file's own terms. -/
theorem allocatePack_eq (hs : e.Storable)
    (hle : (fm.dataFiles id).writeIndex ≤ kMaxFileBytes) :
    allocatePack e ⟨id, id, some id⟩ fm =
      if (fm.dataFiles id).writeIndex + e.size ≤ kMaxFileBytes then
        some (⟨id, (fm.dataFiles id).writeIndex⟩, addRecord id e fm)
      else none := by
  simp only [allocatePack, sub64_of_le hle, hs.sizeOf_eq, packInto_size hs, Option.getD_some,
    addRecord]
  by_cases h : (fm.dataFiles id).writeIndex + e.size ≤ kMaxFileBytes
  · rw [if_pos h, if_neg (by omega)]
  · rw [if_neg h, if_pos (by omega)]

theorem unPackAll_absent : unPackAll DataFile.absent = [] :=
  ReadBuffer.collect_of_none (by
    rw [Entry.unPack_of_header (Header.unPack_of_kEmpty rfl)])

namespace Laid

theorem capture_eq (h : fm.Laid L) :
    fm.capture = ⟨fm.activeFileId, fm.activeFileId, some fm.activeFileId⟩ := by
  simp [capture, h.data, h.log]

theorem activeOffset_le (h : fm.Laid L) : fm.activeOffset ≤ kMaxFileBytes :=
  h.write ▸ (h.files fm.activeFileId).fits

theorem allocatePack_capture (h : fm.Laid L) (hs : e.Storable) :
    allocatePack e fm.capture fm =
      if fm.Fits e then
        some (⟨fm.activeFileId, fm.activeOffset⟩, addRecord fm.activeFileId e fm)
      else none := by
  rw [h.capture_eq, allocatePack_eq hs h.activeOffset_le]
  rfl

theorem addRecord (h : fm.Laid L) (hs : e.Storable) (hfits : fm.Fits e) :
    (addRecord fm.activeFileId e fm).Laid (L.add fm.activeFileId e) where
  files := by
    intro id
    by_cases hid : id = fm.activeFileId
    · subst hid
      simp only [FileManager.addRecord, Log.add, Function.update_self]
      exact (h.files fm.activeFileId).addRecord h.write hs hfits _
    · simp only [FileManager.addRecord, Log.add, Function.update_of_ne hid]
      exact h.files id
  data := h.data
  log := h.log
  write := by
    have hw : (fm.dataFiles fm.activeFileId).writeIndex = totalSize (L fm.activeFileId) := h.write
    simp [FileManager.addRecord, activeOffset, Log.add, hw, hs.sizeOf_eq]

end Laid

/-! ### Opening a file for writing -/

/-- The file that `CreateFile(id)` finds or makes. -/
def opened (fm : FileManager) (id : ℕ) : DataFile :=
  if (fm.dataFiles id).linked then fm.dataFiles id else DataFile.absent

theorem absent_holds : DataFile.absent.Holds [] :=
  ⟨by simp [DataFile.absent, packAll], Nat.zero_le _, by simp⟩

/-- The loop of `CreateFile` restores the write index and the index log. -/
theorem openActive_eq {es : List Entry} (h : (fm.opened id).Holds es) :
    openActive id fm =
      { fm with
        metadata := (fm.metadata.createFile .sound id).2
        activeIndexLog := some id
        activeDataFile := some id
        activeFileId := id
        dataFiles := Function.update fm.dataFiles id
          { fm.opened id with writeIndex := totalSize es, linked := true }
        indexLogs := Function.update fm.indexLogs id (packLog es) } := by
  have hfits : 0 + totalSize es ≤ kMaxFileBytes := by
    rw [Nat.zero_add]
    exact h.fits
  have hrebuild := rebuildLog_eq h.storable hfits
  rw [Nat.zero_add] at hrebuild
  have hfile : (if (fm.dataFiles id).linked then fm.dataFiles id else DataFile.absent) =
      fm.opened id := rfl
  simp only [openActive, hfile, h.unPackAll_eq, hrebuild]
  rfl

theorem openActive_laid (hfiles : ∀ j ≠ id, (fm.dataFiles j).Holds (L j))
    (h : (fm.opened id).Holds (L id)) : (openActive id fm).Laid L := by
  rw [openActive_eq h]
  refine { files := fun j => ?_, data := rfl, log := rfl, write := ?_ }
  · by_cases hj : j = id
    · subst hj
      simp only [Function.update_self]
      exact ⟨h.data, h.fits, h.storable⟩
    · simp only [Function.update_of_ne hj]
      exact hfiles j hj
  · simp only [activeOffset, Function.update_self]

namespace Holds

/-- A roll-over that does not wrap makes a fresh file active, if that file opens. -/
theorem rollOver_eq {opens : OpenData} (h : fm.Holds L) (hwrap : fm.activeFileId + 1 < 2 ^ 32)
    (hopen : opens (fm.activeFileId + 1) = .kOk) :
    rollOver opens fm.capture fm = (.kOk, fm.rolled) := by
  have hlinked := (h.fresh (fm.activeFileId + 1) (Nat.lt_succ_self _)).1
  rw [h.capture_eq, rollOver, if_neg (by simp), u32_of_lt hwrap]
  simp only [createFile, hopen, scheduleSeal, h.data, h.log, openActive, hlinked,
    Bool.false_eq_true, if_false, unPackAll_absent, rebuildLog, FileManager.rolled]
  rfl

theorem rollOver_capture (h : fm.Holds L) (hwrap : fm.activeFileId + 1 < 2 ^ 32) :
    rollOver .sound fm.capture fm = (.kOk, fm.rolled) :=
  h.rollOver_eq hwrap rfl

theorem rolled (h : fm.Holds L) : fm.rolled.Holds L where
  files := by
    intro id
    by_cases hid : id = fm.activeFileId + 1
    · subst hid
      have hL := (h.fresh (fm.activeFileId + 1) (Nat.lt_succ_self _)).2
      simp only [FileManager.rolled, Function.update_self, hL, DataFile.absent]
      exact ⟨by simp [packAll], Nat.zero_le _, by simp⟩
    · simp only [FileManager.rolled, Function.update_of_ne hid]
      exact h.files id
  data := rfl
  log := rfl
  write := by
    have hL := (h.fresh (fm.activeFileId + 1) (Nat.lt_succ_self _)).2
    simp [FileManager.rolled, activeOffset, hL, DataFile.absent]
  fresh := by
    intro id hid
    have hid' : fm.activeFileId + 1 < id := hid
    simp only [FileManager.rolled, Function.update_of_ne (Nat.ne_of_gt hid')]
    exact h.fresh id (by omega)

theorem addRecord (h : fm.Holds L) (hs : e.Storable) (hfits : fm.Fits e) :
    (addRecord fm.activeFileId e fm).Holds (L.add fm.activeFileId e) where
  toLaid := h.toLaid.addRecord hs hfits
  fresh := by
    intro id hid
    have hid' : fm.activeFileId < id := hid
    simp only [FileManager.addRecord, Log.add, Function.update_of_ne (Nat.ne_of_gt hid')]
    exact h.fresh id hid'

theorem rolled_fits (hs : e.Storable) : fm.rolled.Fits e := by
  simp only [Fits, activeOffset, FileManager.rolled, Function.update_self, DataFile.absent,
    Nat.zero_add]
  exact hs.size

/-- `Append` returns, with the outcome described by `nextLoc` and `appended`, if the file that
it needs opens. -/
theorem append_eq_of_opens {opens : OpenData} (h : fm.Holds L) (hs : e.Storable)
    (hwrap : ¬ fm.Wraps e) (hopens : ¬ fm.Fits e → opens (fm.activeFileId + 1) = .kOk) :
    fm.append opens e = some (.kOk, fm.nextLoc e, fm.appended e) := by
  obtain ⟨n, hn⟩ : ∃ n, 2 ^ 32 + 1 = n + 1 + 1 := ⟨2 ^ 32 - 1, rfl⟩
  rw [append, hn, appendLoop, h.allocatePack_capture hs]
  by_cases hfits : fm.Fits e
  · simp only [hfits, if_true, nextLoc, FileManager.appended]
  · have hwrap' : fm.activeFileId + 1 < 2 ^ 32 := by
      by_contra hle
      exact hwrap ⟨hfits, Nat.not_lt.mp hle⟩
    simp only [hfits, if_false, h.rollOver_eq hwrap' (hopens hfits), nextLoc,
      FileManager.appended]
    rw [appendLoop, h.rolled.allocatePack_capture hs, if_pos (rolled_fits hs)]
    simp [FileManager.rolled, activeOffset, DataFile.absent]

theorem append_eq (h : fm.Holds L) (hs : e.Storable) (hwrap : ¬ fm.Wraps e) :
    fm.append .sound e = some (.kOk, fm.nextLoc e, fm.appended e) :=
  h.append_eq_of_opens hs hwrap fun _ => rfl

/-- The location returned is the end of its file. -/
theorem nextLoc_eq (h : fm.Holds L) : fm.nextLoc e = L.endOf (fm.nextLoc e).id := by
  unfold nextLoc
  split_ifs
  · rw [h.write]
    rfl
  · rw [Log.endOf, (h.fresh (fm.activeFileId + 1) (Nat.lt_succ_self _)).2]
    rfl

theorem appended (h : fm.Holds L) (hs : e.Storable) :
    (fm.appended e).Holds (L.add (fm.nextLoc e).id e) := by
  unfold FileManager.appended nextLoc
  split_ifs with hfits
  · exact h.addRecord hs hfits
  · exact h.rolled.addRecord hs (rolled_fits hs)

end Holds

end FileManager
end PedroDB
