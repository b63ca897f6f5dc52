import PedroDB.Append
import PedroDB.Recovery
import PedroDB.Reference
import PedroDB.Session

/-!
# A reopened data file

`Append` moves the write position and adds to the index log record by record; `CreateFile`
rebuilds both from the bytes of the file. They agree, so it makes no difference whether the
process has been restarted between two calls of `Append`.

## Main definitions

* `FileManager.Active` — the active file holds these records, and so does its log
* `FileManager.appendAll` — calls of `Append` one after another
* `FileManager.reopen` — the process ends, and another one opens the file

## Main results

* `FileManager.Active.append` — what `Append` does
* `FileManager.Active.openActive` — what `CreateFile` finds
* `FileManager.reopened_eq` — the file and its log after a restart
-/

namespace PedroDB.FileManager

section

variable [Platform] {opens : OpenData} {fm fm' : FileManager} {es es' : List Entry} {e : Entry}
  {id : ℕ}

/-- File `id` is active, holds these records, and its index log lists them. -/
structure Active (fm : FileManager) (id : ℕ) (es : List Entry) : Prop where
  file : (fm.dataFiles id).Holds es
  write : (fm.dataFiles id).writeIndex = totalSize es
  linked : (fm.dataFiles id).linked = true
  active : fm.activeFileId = id
  data : fm.activeDataFile = some id
  log : fm.activeIndexLog = some id
  logged : fm.indexLogs id = packLog es

/-- Calls of `Append` one after another; `none` if one of them does not return `kOk`. -/
def appendAll (opens : OpenData) (es : List Entry) (fm : FileManager) : Option FileManager :=
  es.foldlM (fun fm e =>
    match fm.append opens e with
    | some (.kOk, _, fm) => some fm
    | _ => none) fm

/-- The process ends, and another one opens file `id` for writing. -/
def reopen (opens : OpenData) (max_open_files : ℕ) (metadata : MetadataManager) (id : ℕ)
    (fm : FileManager) : Status × FileManager :=
  createFile opens id (create max_open_files metadata
    (fun j => DataFile.onDisk (fm.disk.dataFiles j)) fm.disk.indexFiles)

namespace Active

/-- The records decide about the file and about its log. -/
theorem unique (h : fm.Active id es) (h' : fm'.Active id es) :
    fm'.dataFiles id = fm.dataFiles id ∧ fm'.activeIndexLog = fm.activeIndexLog ∧
      fm'.indexLogs id = fm.indexLogs id := by
  refine ⟨?_, h'.log.trans h.log.symm, h'.logged.trans h.logged.symm⟩
  have hdata := h'.file.data.trans h.file.data.symm
  have hwrite := h'.write.trans h.write.symm
  have hlinked := h'.linked.trans h.linked.symm
  generalize fm'.dataFiles id = f at *
  generalize fm.dataFiles id = g at *
  cases f
  cases g
  exact DataFile.mk.injEq .. ▸ ⟨hdata, hwrite, hlinked⟩

/-- A record that fits goes behind the last one, and into the log. -/
theorem append (opens : OpenData) (h : fm.Active id es) (hs : e.Storable)
    (hfits : totalSize es + e.size ≤ kMaxFileBytes) :
    fm.append opens e = some (.kOk, ⟨id, totalSize es⟩, addRecord id e fm) ∧
      (addRecord id e fm).Active id (es ++ [e]) := by
  have hcapture : fm.capture = ⟨id, id, some id⟩ := by
    rw [capture, h.active, h.data, h.log, Option.getD_some]
  have hle : (fm.dataFiles id).writeIndex ≤ kMaxFileBytes := h.write.le.trans (by omega)
  have hallocate := allocatePack_eq hs hle
  constructor
  · rw [FileManager.append, appendLoop, hcapture, hallocate, h.write, if_pos hfits]
  · refine { file := ?_, write := ?_, linked := ?_, active := h.active, data := h.data, log := h.log
             logged := ?_ }
    · simp only [addRecord, Function.update_self]
      exact h.file.addRecord h.write hs (h.write.symm ▸ hfits) _
    · simp only [addRecord, Function.update_self, totalSize_concat, h.write, hs.sizeOf_eq]
    · simp only [addRecord, Function.update_self]
      exact h.linked
    · simp only [addRecord, Function.update_self, packLog_concat, h.logged, h.write]

/-- Calls of `Append` whose records fit. -/
theorem appendAll (opens : OpenData) (h : fm.Active id es) (hs : ∀ e ∈ es', e.Storable)
    (hfits : totalSize es + totalSize es' ≤ kMaxFileBytes) :
    ∃ fm', FileManager.appendAll opens es' fm = some fm' ∧ fm'.Active id (es ++ es') ∧
      fm'.indexFiles = fm.indexFiles := by
  induction es' generalizing fm es with
  | nil => exact ⟨fm, rfl, by simpa using h, rfl⟩
  | cons e es' ih =>
    rw [totalSize_cons] at hfits
    obtain ⟨happend, h₁⟩ := h.append opens (hs e List.mem_cons_self) (by omega)
    obtain ⟨fm', hall, h', hindex⟩ := ih h₁ (fun x hx => hs x (List.mem_cons_of_mem _ hx))
      (by rw [totalSize_concat]; omega)
    refine ⟨fm', ?_, by simpa using h', hindex⟩
    rw [FileManager.appendAll, List.foldlM_cons, happend]
    exact hall

/-- Opening a file that holds these records for writing. -/
theorem openActive (h : (fm.opened id).Holds es) : (FileManager.openActive id fm).Active id es := by
  rw [openActive_eq h]
  refine { file := ?_, write := ?_, linked := ?_, active := rfl, data := rfl, log := rfl, logged := ?_ }
  · simp only [Function.update_self]
    exact ⟨h.data, h.fits, h.storable⟩
  · simp only [Function.update_self]
  · simp only [Function.update_self]
  · simp only [Function.update_self]

/-- A restart. -/
theorem reopen (h : fm.Active id es) (hopen : opens id = .kOk) (n : ℕ) (m : MetadataManager) :
    ∃ fm', FileManager.reopen opens n m id fm = (.kOk, fm') ∧ fm'.Active id es ∧
      fm'.indexFiles = fm.indexFiles := by
  have hfile : ((create n m (fun j => DataFile.onDisk (fm.disk.dataFiles j))
      fm.disk.indexFiles).opened id).Holds es := by
    have hdisk : fm.disk.dataFiles id = some (fm.dataFiles id).data := if_pos h.linked
    simp only [opened, create, hdisk, DataFile.onDisk, if_true]
    exact ⟨h.file.data, h.file.fits, h.file.storable⟩
  refine ⟨_, ?_, openActive hfile, rfl⟩
  simp only [FileManager.reopen, createFile, hopen]
  rfl

end Active

omit [Platform] in
/-- The index file that the task writes, if it writes one, has the index log of the file. -/
theorem createIndexFile_congr (hindex : fm'.indexFiles = fm.indexFiles)
    (hlog : fm'.indexLogs id = fm.indexLogs id) :
    (createIndexFile id fm').indexFiles = (createIndexFile id fm).indexFiles := by
  simp only [createIndexFile, hindex, hlog]
  split_ifs
  · rfl
  · simp only

/-- A new file is active and empty. -/
theorem Active.createFile (opens : OpenData) (hnew : (fm.dataFiles id).linked = false)
    (hopen : opens id = .kOk) :
    ∃ fm', FileManager.createFile opens id fm = (.kOk, fm') ∧ fm'.Active id [] := by
  have hfile : ((scheduleSeal fm).opened id).Holds [] := by
    have hdata : fm.scheduleSeal.dataFiles = fm.dataFiles := by
      unfold scheduleSeal
      split <;> rfl
    have hopened : fm.scheduleSeal.opened id = DataFile.absent := by
      simp only [opened, hdata, hnew, Bool.false_eq_true, if_false]
    rw [hopened]
    exact absent_holds
  refine ⟨FileManager.openActive id fm.scheduleSeal, ?_, Active.openActive hfile⟩
  simp only [FileManager.createFile, hopen]

omit [Platform] in
/-- Records that a data file has room for. -/
theorem storable_of_fits (htype : ∀ e ∈ es, e.type = .kSet ∨ e.type = .kDelete)
    (hkey : ∀ e ∈ es, e.key.length ≤ 255) {n : ℕ} (hfits : n + totalSize es ≤ kMaxFileBytes) :
    ∀ e ∈ es, e.Storable := by
  intro e he
  refine ⟨htype e he, hkey e he, ?_⟩
  obtain ⟨pre, post, rfl⟩ := List.append_of_mem he
  rw [totalSize_append, totalSize_cons] at hfits
  omega

/-- A file that is filled by calls of `Append` and opened again, also by a process that
starts anew: the write offset and the index log are as they were, and from there on the
two histories write the same bytes and the same index file. -/
theorem reopened_eq (opens opens' : OpenData) (fm : FileManager) (id : ℕ) (es : List Entry)
    (hnew : (fm.dataFiles id).linked = false) (hopen : opens id = .kOk)
    (hopen' : opens' id = .kOk)
    (htype : ∀ e ∈ es, e.type = .kSet ∨ e.type = .kDelete)
    (hkey : ∀ e ∈ es, e.key.length ≤ 255) (hfits : totalSize es ≤ kMaxFileBytes) :
    ∃ fm₀ fm₁, createFile opens id fm = (.kOk, fm₀) ∧ appendAll opens es fm₀ = some fm₁ ∧
      ∀ n metadata, ∃ fm₂, reopen opens' n metadata id fm₁ = (.kOk, fm₂) ∧
        (fm₂.dataFiles id).writeIndex = (fm₁.dataFiles id).writeIndex ∧
        fm₂.activeIndexLog = fm₁.activeIndexLog ∧ fm₂.indexLogs id = fm₁.indexLogs id ∧
        ∀ es' : List Entry, (∀ e ∈ es', e.type = .kSet ∨ e.type = .kDelete) →
          (∀ e ∈ es', e.key.length ≤ 255) → totalSize es + totalSize es' ≤ kMaxFileBytes →
          ∃ fm₁' fm₂', appendAll opens es' fm₁ = some fm₁' ∧
            appendAll opens' es' fm₂ = some fm₂' ∧
            fm₂'.dataFiles id = fm₁'.dataFiles id ∧ fm₂'.indexLogs id = fm₁'.indexLogs id ∧
            (createIndexFile id fm₂').indexFiles = (createIndexFile id fm₁').indexFiles := by
  -- The file is created and filled, and then opened again.
  have hfits₀ : totalSize [] + totalSize es ≤ kMaxFileBytes := by simpa using hfits
  obtain ⟨fm₀, hcreate, h₀⟩ := Active.createFile opens hnew hopen
  obtain ⟨fm₁, hall, h₁, -⟩ := h₀.appendAll opens (storable_of_fits htype hkey hfits₀) hfits₀
  rw [List.nil_append] at h₁
  refine ⟨fm₀, fm₁, hcreate, hall, fun n metadata => ?_⟩
  obtain ⟨fm₂, hreopen, h₂, hindex⟩ := h₁.reopen hopen' n metadata
  obtain ⟨hfile, hlog, hlogs⟩ := h₁.unique h₂
  refine ⟨fm₂, hreopen, congrArg DataFile.writeIndex hfile, hlog, hlogs, ?_⟩
  -- Both histories go on from a file that holds `es`.
  intro es' htype' hkey' hfits'
  have hs' : ∀ e ∈ es', e.Storable := storable_of_fits htype' hkey' hfits'
  obtain ⟨fm₁', hall₁, h₁', hindex₁⟩ := h₁.appendAll opens hs' hfits'
  obtain ⟨fm₂', hall₂, h₂', hindex₂⟩ := h₂.appendAll opens' hs' hfits'
  obtain ⟨hfile', -, hlogs'⟩ := h₁'.unique h₂'
  refine ⟨fm₁', fm₂', hall₁, hall₂, hfile', hlogs', createIndexFile_congr ?_ hlogs'⟩
  rw [hindex₁, hindex₂, hindex]

end

open scoped Reference

/-- A set record and a delete record, on a file manager without files. -/
theorem reopened_eq_two : ∃ fm₀ fm₁,
    createFile .sound 1 (create 8 (MetadataManager.createDatabase []) (fun _ => .absent) fun _ => none) =
        (.kOk, fm₀) ∧
      appendAll .sound [⟨0, .kSet, [107], [1], 0⟩, ⟨0, .kDelete, [107], [], 0⟩] fm₀ = some fm₁ ∧
      ∀ n metadata, ∃ fm₂, reopen .sound n metadata 1 fm₁ = (.kOk, fm₂) ∧
        (fm₂.dataFiles 1).writeIndex = (fm₁.dataFiles 1).writeIndex ∧
        fm₂.indexLogs 1 = fm₁.indexLogs 1 := by
  obtain ⟨fm₀, fm₁, hcreate, hall, hreopen⟩ := reopened_eq .sound .sound
    (create 8 (MetadataManager.createDatabase []) (fun _ => .absent) fun _ => none) 1
    [⟨0, .kSet, [107], [1], 0⟩, ⟨0, .kDelete, [107], [], 0⟩] rfl rfl rfl (by decide) (by decide)
    (by decide)
  refine ⟨fm₀, fm₁, hcreate, hall, fun n metadata => ?_⟩
  obtain ⟨fm₂, hfm₂, hwrite, -, hlog, -⟩ := hreopen n metadata
  exact ⟨fm₂, hfm₂, hwrite, hlog⟩

end PedroDB.FileManager
