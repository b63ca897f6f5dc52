import PedroDB.Format.Torn
import PedroDB.Restart

/-!
# An interrupted `Append`

A process dies while `Append` packs its record: a prefix of the bytes has reached the
active data file, the rest of the allocated region is still zero.

## Main definitions

* `FileManager.tornPack`, `FileManager.tornAppend` — `Append`, left inside `Pack`
* `DBImpl.tornPut` — `HandlePut`, left there
* `Log.addTorn` — what the records of the files become

## Main results

* `FileManager.tornAppended_disk` — what is on disk afterwards
-/

namespace PedroDB

/-- The log after `cut` bytes of a record were packed behind the last one of file `id`. -/
def Log.addTorn [Platform] (L : Log) (id : ℕ) (e : Entry) (cut : ℕ) : Log :=
  Function.update L id (L id ++ (e.torn cut).toList)

namespace FileManager

variable [Platform]

/-- The section of `Append` under the file lock, left after `cut` bytes were packed. -/
def tornPack (e : Entry) (cut : ℕ) (c : Capture) (fm : FileManager) : Option FileManager :=
  let file := fm.dataFiles c.dataFile
  let n := e.sizeOf
  if sub64 kMaxFileBytes file.writeIndex < n then none
  else
    let file :=
      { file with
        data := Padded.write file.data file.writeIndex (((e.packInto n).getD []).take cut)
        writeIndex := file.writeIndex + n }
    some { fm with dataFiles := Function.update fm.dataFiles c.dataFile file }

/-- `Append`, left inside `Pack`. -/
def tornLoop (opens : OpenData) (e : Entry) (cut : ℕ) : ℕ → FileManager → Option FileManager
  | 0, _ => none
  | fuel + 1, fm =>
    match tornPack e cut fm.capture fm with
    | some fm => some fm
    | none =>
      match rollOver opens fm.capture fm with
      | (.kOk, fm') => tornLoop opens e cut fuel fm'
      | (_, fm') => some fm'

/-- `Append`, left inside `Pack`, after at most as many rounds as there are file ids. -/
def tornAppend (opens : OpenData) (e : Entry) (cut : ℕ) (fm : FileManager) : Option FileManager :=
  tornLoop opens e cut (2 ^ 32 + 1) fm

/-- A prefix of a record packed behind the last record of file `id`. -/
def tornRecord (id : ℕ) (e : Entry) (cut : ℕ) (fm : FileManager) : FileManager :=
  { fm with
    dataFiles := Function.update fm.dataFiles id
      { fm.dataFiles id with
        data := Padded.write (fm.dataFiles id).data (fm.dataFiles id).writeIndex (e.pack.take cut)
        writeIndex := (fm.dataFiles id).writeIndex + e.size } }

/-- The file manager that the interrupted `Append` leaves behind. -/
def tornAppended (fm : FileManager) (e : Entry) (cut : ℕ) : FileManager :=
  if fm.Fits e then tornRecord fm.activeFileId e cut fm
  else tornRecord (fm.activeFileId + 1) e cut fm.rolled

end FileManager

namespace DBImpl

variable [Platform]

/-- `HandlePut`, left inside `Pack`. -/
def tornPut (opt : Options) (opens : OpenData) (w : Write) (cut : ℕ) (db : DBImpl) :
    Option DBImpl :=
  match prepare opt w db with
  | .error _ => some db
  | .ok e => (db.fileManager.tornAppend opens e cut).map fun fileManager => { db with fileManager }

end DBImpl

variable [Platform] {L R : Log} {e : Entry} {cut : ℕ}

/-- What was packed of a record, behind the records of the file. -/
theorem DataFile.Holds.torn [Platform.BigEndian] {f : DataFile} {es : List Entry}
    (h : f.Holds es) (hs : e.Storable) (hroom : totalSize es + e.size ≤ kMaxFileBytes)
    (writeIndex : ℕ) (linked : Bool) :
    DataFile.Holds
      { data := Padded.write f.data (totalSize es) (e.pack.take cut), writeIndex, linked }
      (es ++ (e.torn cut).toList) := by
  have hwrite : Padded.write f.data (totalSize es) (e.pack.take cut) =
      Padded.ofList 0 (packAll es ++ Padded.keep 0 cut e.pack) := by
    rw [h.data, ← length_packAll, Padded.write_ofList_take]
  rcases Nat.eq_zero_or_pos cut with rfl | hcut
  · -- No byte has arrived.
    rw [Padded.keep_zero, Padded.ofList_append_replicate] at hwrite
    rw [Entry.torn_zero, Option.toList_none, List.append_nil]
    exact ⟨hwrite, h.fits, h.storable⟩
  · -- The cut record holds the bytes that have arrived.
    obtain ⟨e', htorn, hs', -, hsize, hkeep⟩ := Entry.exists_torn hs hcut
    have hpack : packAll es ++ e'.pack = packAll (es ++ [e']) := by
      rw [packAll_append, packAll_singleton]
    rw [hkeep, ← List.append_assoc, Padded.ofList_append_replicate, hpack] at hwrite
    rw [htorn, Option.toList_some]
    refine ⟨hwrite, ?_, ?_⟩
    · rw [totalSize_concat]
      omega
    · intro x hx
      rcases List.mem_append.mp hx with hx | hx
      · exact h.storable x hx
      · rw [List.mem_singleton.mp hx]
        exact hs'

namespace FileManager

variable {fm : FileManager}

theorem tornPack_eq (h : fm.Laid L) (hs : e.Storable) :
    tornPack e cut fm.capture fm =
      if fm.Fits e then some (tornRecord fm.activeFileId e cut fm) else none := by
  have hle : (fm.dataFiles fm.activeFileId).writeIndex ≤ kMaxFileBytes := h.activeOffset_le
  have hfits_iff : fm.Fits e ↔
      ¬ kMaxFileBytes - (fm.dataFiles fm.activeFileId).writeIndex < e.size := by
    unfold Fits activeOffset
    omega
  rw [h.capture_eq]
  simp only [tornPack, sub64_of_le hle, hs.sizeOf_eq, packInto_size hs, Option.getD_some,
    tornRecord, hfits_iff, ite_not]

/-- The interrupted `Append` gets as far as `Append` does. -/
theorem tornAppend_eq (h : fm.Holds L) (hs : e.Storable) (hwrap : ¬ fm.Wraps e) :
    fm.tornAppend .sound e cut = some (fm.tornAppended e cut) := by
  obtain ⟨n, hn⟩ : ∃ n, 2 ^ 32 + 1 = n + 1 + 1 := ⟨2 ^ 32 - 1, rfl⟩
  rw [tornAppend, hn, tornLoop, tornPack_eq h.toLaid hs]
  by_cases hfits : fm.Fits e
  · simp only [hfits, if_true, tornAppended]
  · have hrolled := h.rollOver_capture (not_wraps_of_not_fits hwrap hfits)
    simp only [hfits, if_false, hrolled, tornAppended]
    rw [tornLoop, tornPack_eq h.rolled.toLaid hs, if_pos (Holds.rolled_fits hs)]
    rfl

variable [Platform.BigEndian]

/-- What is on disk after a prefix of a record was packed into the active file. -/
theorem tornRecord_disk (hlaid : fm.Laid L) (hs : e.Storable) (hfits : fm.Fits e)
    (hlinked : (fm.dataFiles fm.activeFileId).linked = true)
    (h : fm.disk.Holds fm.metadata fm.activeFileId R) (hR : R fm.activeFileId = L fm.activeFileId) :
    (tornRecord fm.activeFileId e cut fm).disk.Holds fm.metadata fm.activeFileId
      (R.addTorn fm.activeFileId e cut) where
  metadata := h.metadata
  logged := h.logged
  name := h.name
  mem_active := h.mem_active
  le_active := h.le_active
  bound := h.bound
  present := by
    intro id
    rw [← h.present id]
    -- Only the active file has changed.
    by_cases hid : id = fm.activeFileId
    · subst hid
      simp only [disk, tornRecord, Function.update_self, hlinked, if_true, Option.isSome_some]
    · simp only [disk, tornRecord, Function.update_of_ne hid]
  records := by
    intro id
    by_cases hid : id = fm.activeFileId
    · subst hid
      have hw : (fm.dataFiles fm.activeFileId).writeIndex = totalSize (L fm.activeFileId) :=
        hlaid.write
      have hroom : totalSize (L fm.activeFileId) + e.size ≤ kMaxFileBytes := hlaid.write ▸ hfits
      simp only [disk, tornRecord, Log.addTorn, Function.update_self, hlinked, if_true, hR, hw]
      exact (hlaid.files fm.activeFileId).torn hs hroom 0 true
    · simp only [disk, tornRecord, Log.addTorn, Function.update_of_ne hid]
      exact h.records id
  index := by
    intro id bytes hbytes
    -- A torn write can only hit the active file, which has no index file yet.
    obtain ⟨hlt, hlog⟩ := h.index id bytes hbytes
    rw [Log.addTorn, Function.update_of_ne hlt.ne]
    exact ⟨hlt, hlog⟩

/-- What is on disk after an interrupted `Append`. -/
theorem tornAppended_disk (hholds : fm.Holds L) (hindexed : fm.Indexed L) (hreg : fm.Registered)
    (hname : fm.metadata.name.length < 2 ^ 16) (hs : e.Storable) (hwrap : ¬ fm.Wraps e)
    (hfull : L.restrict fm.metadata.files = L) :
    (fm.tornAppended e cut).disk.Holds (fm.appended e).metadata (fm.appended e).activeFileId
      (L.addTorn (fm.nextLoc e).id e cut) := by
  unfold tornAppended appended nextLoc
  split_ifs with hfits
  · -- The record fits, and the active file is torn.
    have h := disk_holds hholds hindexed hreg hname
    rw [hfull] at h
    exact tornRecord_disk hholds.toLaid hs hfits ((hreg.linked _).mpr hreg.active) h rfl
  · -- The roll-over was finished, and the new file is torn.
    have hfresh := (hholds.fresh (fm.activeFileId + 1) (Nat.lt_succ_self _)).2
    have hreg' := hreg.rolled (not_wraps_of_not_fits hwrap hfits)
    have hname' : fm.rolled.metadata.name.length < 2 ^ 16 := by
      rwa [rolled, MetadataManager.createFile_name]
    have h := disk_holds hholds.rolled (hindexed.rolled hfresh) hreg' hname'
    -- The new file is empty, so all records are still in registered files.
    have hfull' : L.restrict fm.rolled.metadata.files = L := by
      funext id
      rw [Log.restrict]
      split_ifs with hid
      · rfl
      · have hid' : id ∉ fm.metadata.files := by
          intro hmem
          exact hid (by simp [rolled, hmem])
        rw [← hfull, Log.restrict, if_neg hid']
    rw [hfull'] at h
    exact tornRecord_disk hholds.rolled.toLaid hs (Holds.rolled_fits hs)
      ((hreg'.linked _).mpr hreg'.active) h rfl

end FileManager
end PedroDB
