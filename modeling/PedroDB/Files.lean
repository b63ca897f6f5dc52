import PedroDB.Append

/-!
# What is kept about the data files

Index logs, index files, the registration in the metadata and the cache of open files,
and how every operation of the file manager keeps them in step with the records.

## Main definitions

* `FileManager.Indexed` — index logs and index files list the records
* `FileManager.Registered` — a file can be opened exactly if it is registered

## Main results

* `Registered.acquireDataFile_eq` — a registered file is opened, no other is
* `Holds.removeFile`, `Indexed.removeFile`, `Registered.removeFile` — removing a file
  other than the active one
-/

namespace PedroDB.FileManager

variable [Platform] {fm : FileManager} {L : Log} {e : Entry} {id : ℕ}

/-- The index logs that are still to be used list the records of their files, and so do
the index files of registered files. Only sealed files have index files. -/
structure Indexed (fm : FileManager) (L : Log) : Prop where
  active : fm.indexLogs fm.activeFileId = packLog (L fm.activeFileId)
  tasks : ∀ id, Task.createIndexFile id ∈ fm.tasks →
    id < fm.activeFileId ∧ fm.indexLogs id = packLog (L id)
  files : ∀ id bytes, fm.indexFiles id = some bytes →
    id < fm.activeFileId ∧ (id ∈ fm.metadata.files → bytes = packLog (L id))

/-- The active file is registered and is the last one; the files that exist, and only
these, are registered; open files are registered. -/
structure Registered (fm : FileManager) : Prop where
  active : fm.activeFileId ∈ fm.metadata.files
  linked : ∀ id, (fm.dataFiles id).linked = true ↔ id ∈ fm.metadata.files
  le_active : ∀ id ∈ fm.metadata.files, id ≤ fm.activeFileId
  opened : ∀ id, (id, ()) ∈ fm.openFiles.entries → id ∈ fm.metadata.files
  wf : fm.openFiles.WF
  logged : fm.metadata.Logged
  bound : fm.activeFileId < 2 ^ 32

/-! ### Append -/

theorem indexed_addRecord (hw : fm.activeOffset = totalSize (L fm.activeFileId))
    (h : fm.Indexed L) :
    (addRecord fm.activeFileId e fm).Indexed (L.add fm.activeFileId e) where
  active := by
    have hw' : (fm.dataFiles fm.activeFileId).writeIndex = totalSize (L fm.activeFileId) := hw
    simp only [addRecord, Log.add, Function.update_self, packLog_concat, h.active, hw']
  tasks := by
    intro id hid
    obtain ⟨hlt, hlog⟩ := h.tasks id hid
    refine ⟨hlt, ?_⟩
    simp only [addRecord, Log.add, Function.update_of_ne (Nat.ne_of_lt hlt), hlog]
  files := by
    intro id bytes hid
    obtain ⟨hlt, hlog⟩ := h.files id bytes hid
    refine ⟨hlt, fun hmem => ?_⟩
    simp only [Log.add, Function.update_of_ne (Nat.ne_of_lt hlt), hlog hmem]

theorem Indexed.rolled (hfresh : L (fm.activeFileId + 1) = []) (h : fm.Indexed L) :
    fm.rolled.Indexed L where
  active := by
    simp only [FileManager.rolled, Function.update_self, hfresh]
    rfl
  tasks := by
    intro id hid
    have hold : id < fm.activeFileId ∨ id = fm.activeFileId := by
      simp only [FileManager.rolled, List.mem_append, List.mem_cons, List.not_mem_nil, or_false,
        reduceCtorEq, false_or, Task.createIndexFile.injEq] at hid
      exact hid.imp_left fun hid => (h.tasks id hid).1
    have hne : id ≠ fm.activeFileId + 1 := by omega
    refine ⟨Nat.lt_succ_of_le (by omega), ?_⟩
    simp only [FileManager.rolled, Function.update_of_ne hne]
    simp only [FileManager.rolled, List.mem_append, List.mem_cons, List.not_mem_nil, or_false,
      reduceCtorEq, false_or, Task.createIndexFile.injEq] at hid
    rcases hid with hid | rfl
    · exact (h.tasks id hid).2
    · exact h.active
  files := by
    intro id bytes hid
    obtain ⟨hlt, hlog⟩ := h.files id bytes hid
    refine ⟨Nat.lt_succ_of_lt hlt, fun hmem => hlog ?_⟩
    simp only [FileManager.rolled, MetadataManager.createFile_files, Finset.mem_insert] at hmem
    exact hmem.resolve_left (by omega)

theorem Indexed.appended (hh : fm.Holds L) (h : fm.Indexed L) :
    (fm.appended e).Indexed (L.add (fm.nextLoc e).id e) := by
  unfold FileManager.appended nextLoc
  split_ifs with hfits
  · exact indexed_addRecord hh.write h
  · have hfresh := (hh.fresh (fm.activeFileId + 1) (Nat.lt_succ_self _)).2
    exact indexed_addRecord hh.rolled.write (h.rolled hfresh)

theorem Registered.addRecord (h : fm.Registered) (id : ℕ) (e : Entry) :
    (addRecord id e fm).Registered where
  active := h.active
  linked := by
    intro j
    have hlinked : ((FileManager.addRecord id e fm).dataFiles j).linked =
        (fm.dataFiles j).linked := by
      by_cases hj : j = id
      · subst hj
        simp only [FileManager.addRecord, Function.update_self]
      · simp only [FileManager.addRecord, Function.update_of_ne hj]
    rw [hlinked]
    exact h.linked j
  le_active := h.le_active
  opened := h.opened
  wf := h.wf
  logged := h.logged
  bound := h.bound

theorem Registered.rolled (h : fm.Registered) (hwrap : fm.activeFileId + 1 < 2 ^ 32) :
    fm.rolled.Registered where
  active := by simp [FileManager.rolled]
  linked := by
    intro j
    by_cases hj : j = fm.activeFileId + 1
    · subst hj
      simp [FileManager.rolled]
    · simp only [FileManager.rolled, Function.update_of_ne hj, h.linked j,
        MetadataManager.createFile_files, Finset.mem_insert, hj, false_or]
  le_active := by
    intro j hj
    simp only [FileManager.rolled, MetadataManager.createFile_files, Finset.mem_insert] at hj ⊢
    rcases hj with rfl | hj
    · exact le_rfl
    · exact (h.le_active j hj).trans (Nat.le_succ _)
  opened := by
    intro j hj
    simp only [FileManager.rolled, MetadataManager.createFile_files, Finset.mem_insert]
    exact Or.inr (h.opened j hj)
  wf := h.wf
  logged := h.logged.createFile hwrap
  bound := hwrap

omit [Platform] in
theorem not_wraps_of_not_fits (hwrap : ¬ fm.Wraps e) (hfits : ¬ fm.Fits e) :
    fm.activeFileId + 1 < 2 ^ 32 := by
  by_contra hle
  exact hwrap ⟨hfits, Nat.not_lt.mp hle⟩

theorem Registered.appended (h : fm.Registered) (hwrap : ¬ fm.Wraps e) :
    (fm.appended e).Registered := by
  unfold FileManager.appended
  split_ifs with hfits
  · exact h.addRecord _ _
  · exact (h.rolled (not_wraps_of_not_fits hwrap hfits)).addRecord _ _

/-- The location returned is in the file that is active afterwards. -/
theorem nextLoc_id : (fm.nextLoc e).id = (fm.appended e).activeFileId := by
  unfold nextLoc FileManager.appended
  split_ifs <;> rfl

theorem activeFileId_le_appended : fm.activeFileId ≤ (fm.appended e).activeFileId := by
  unfold FileManager.appended
  split_ifs
  · exact le_rfl
  · exact Nat.le_succ _

theorem appended_activeFileId_le (fm : FileManager) (e : Entry) :
    (fm.appended e).activeFileId ≤ fm.activeFileId + 1 := by
  unfold FileManager.appended
  split_ifs
  · exact Nat.le_succ _
  · exact le_rfl

/-- `Append` unregisters nothing. -/
theorem files_subset_appended : fm.metadata.files ⊆ (fm.appended e).metadata.files := by
  unfold FileManager.appended
  split_ifs
  · exact Finset.Subset.refl _
  · intro j hj
    simp only [FileManager.addRecord, FileManager.rolled, MetadataManager.createFile_files,
      Finset.mem_insert]
    exact Or.inr hj

theorem Holds.located_nextLoc (h : fm.Holds L) :
    Located (L.add (fm.nextLoc e).id e) (fm.nextLoc e) e := by
  have hloc := located_endOf L (fm.nextLoc e).id e
  rwa [← h.nextLoc_eq] at hloc

theorem Registered.nextLoc_mem (h : (fm.appended e).Registered) :
    (fm.nextLoc e).id ∈ (fm.appended e).metadata.files := by
  rw [nextLoc_id]
  exact h.active

/-- What `Append` does not change. -/
theorem appended_name : (fm.appended e).metadata.name = fm.metadata.name := by
  unfold FileManager.appended
  split_ifs
  · rfl
  · simp [FileManager.addRecord, FileManager.rolled]

/-- The records of the registered files, once one more was appended. -/
theorem Holds.located_appended {loc : Location} {x : Entry} (h : fm.Holds L)
    (hmem : loc.id ∈ (fm.appended e).metadata.files)
    (hloc : Located (L.add (fm.nextLoc e).id e) loc x) :
    loc = fm.nextLoc e ∧ x = e ∨ loc.id ∈ fm.metadata.files ∧ Located L loc x := by
  rcases located_add_iff.mp hloc with hold | ⟨rfl, rfl⟩
  · refine Or.inr ⟨?_, hold⟩
    unfold FileManager.appended at hmem
    split_ifs at hmem
    · exact hmem
    · simp only [FileManager.addRecord, FileManager.rolled, MetadataManager.createFile_files,
        Finset.mem_insert] at hmem
      refine hmem.resolve_left fun hid => ?_
      have := hold.mem
      rw [hid, (h.fresh _ (Nat.lt_succ_self _)).2] at this
      cases this
  · exact Or.inl ⟨h.nextLoc_eq.symm, rfl⟩

/-- A new record stands behind all records of registered files. -/
theorem Holds.lt_nextLoc {loc : Location} {x : Entry} (h : fm.Holds L) (hreg : fm.Registered)
    (hmem : loc.id ∈ fm.metadata.files) (hloc : Located L loc x) : loc < fm.nextLoc e := by
  rw [h.nextLoc_eq]
  refine hloc.lt_endOf ((hreg.le_active _ hmem).trans ?_)
  rw [nextLoc_id]
  exact activeFileId_le_appended

/-! ### Opening a file -/

theorem Holds.openFiles (h : fm.Holds L) (o : LRUCache ℕ Unit) :
    ({ fm with openFiles := o } : FileManager).Holds L :=
  ⟨⟨h.files, h.data, h.log, h.write⟩, h.fresh⟩

theorem Indexed.openFiles (h : fm.Indexed L) (o : LRUCache ℕ Unit) :
    ({ fm with openFiles := o } : FileManager).Indexed L :=
  ⟨h.active, h.tasks, h.files⟩

theorem Registered.openFiles (h : fm.Registered) {o : LRUCache ℕ Unit} (hwf : o.WF)
    (ho : ∀ id, (id, ()) ∈ o.entries → id ∈ fm.metadata.files) :
    ({ fm with openFiles := o } : FileManager).Registered :=
  ⟨h.active, h.linked, h.le_active, ho, hwf, h.logged, h.bound⟩

omit [Platform] in
/-- Opening a file for reading changes the cache of open files at most. -/
theorem acquireDataFile_openFiles (fm : FileManager) (id : ℕ) :
    ∃ o, (fm.acquireDataFile id).2 = { fm with openFiles := o } := by
  unfold FileManager.acquireDataFile
  split_ifs
  · exact ⟨fm.openFiles, rfl⟩
  · rcases fm.openFiles.get id with ⟨_ | u, o⟩
    · dsimp only
      split_ifs
      · exact ⟨_, rfl⟩
      · exact ⟨_, rfl⟩
    · exact ⟨_, rfl⟩

/-- A registered file is opened, no other is, and only the cache of open files changes. -/
theorem Registered.acquireDataFile_eq (h : fm.Registered) (id : ℕ) :
    ∃ o, fm.acquireDataFile id = (if id ∈ fm.metadata.files then .kOk else .kIOError,
        { fm with openFiles := o }) ∧
      ({ fm with openFiles := o } : FileManager).Registered := by
  have hget : ∀ j, (j, ()) ∈ (fm.openFiles.get id).2.entries → j ∈ fm.metadata.files :=
    fun j hj => h.opened j (LRUCache.mem_get hj)
  have hwf : (fm.openFiles.get id).2.WF := h.wf.get
  unfold FileManager.acquireDataFile
  split_ifs with hactive hreg hreg
  · -- The active file needs no handle from the cache.
    exact ⟨fm.openFiles, rfl, h⟩
  · exact absurd (hactive ▸ h.active) hreg
  · -- A registered file, so it opens.
    rcases hopen : fm.openFiles.get id with ⟨_ | u, o⟩
    · rw [hopen] at hget hwf
      have hlinked := (h.linked id).mpr hreg
      refine ⟨o.put id (), by simp only [hlinked, if_true], h.openFiles hwf.put ?_⟩
      intro j hj
      rcases LRUCache.mem_put hj with hj | hj
      · exact hget j hj
      · exact (Prod.mk.inj hj).1 ▸ hreg
    · rw [hopen] at hget hwf
      exact ⟨o, rfl, h.openFiles hwf hget⟩
  · -- A file that is not registered neither opens nor has a handle.
    rcases hopen : fm.openFiles.get id with ⟨_ | u, o⟩
    · rw [hopen] at hget hwf
      have hlinked : (fm.dataFiles id).linked = false :=
        Bool.eq_false_iff.mpr fun hl => hreg ((h.linked id).mp hl)
      exact ⟨o, by simp [hlinked], h.openFiles hwf hget⟩
    · exact absurd (h.opened id (LRUCache.get_mem (by rw [hopen]))) hreg

/-! ### Removing a file -/

theorem removeFile_eq :
    fm.removeFile id =
      { fm with
        openFiles := (fm.openFiles.remove id).2
        metadata := (fm.metadata.deleteFile .sound id).2
        dataFiles := Function.update fm.dataFiles id { fm.dataFiles id with linked := false }
        indexFiles := Function.update fm.indexFiles id none } := by
  have hstatus : (fm.metadata.deleteFile .sound id).1 = .kOk := MetadataManager.deleteFile_status
  rcases hdel : fm.metadata.deleteFile .sound id with ⟨status, metadata⟩
  rw [hdel] at hstatus
  obtain rfl : status = .kOk := hstatus
  simp only [removeFile, releaseDataFile, hdel]

@[simp] theorem removeFile_files :
    (fm.removeFile id).metadata.files = fm.metadata.files.erase id := by
  rw [removeFile_eq]
  exact MetadataManager.deleteFile_files

@[simp] theorem removeFile_activeFileId : (fm.removeFile id).activeFileId = fm.activeFileId := by
  rw [removeFile_eq]

/-- A removed file keeps its content for whoever has it mapped. -/
theorem removeFile_data {j : ℕ} :
    ((fm.removeFile id).dataFiles j).data = (fm.dataFiles j).data ∧
      ((fm.removeFile id).dataFiles j).writeIndex = (fm.dataFiles j).writeIndex := by
  rw [removeFile_eq]
  by_cases hj : j = id
  · subst hj
    simp only [Function.update_self, and_self]
  · simp only [Function.update_of_ne hj, and_self]

theorem Holds.removeFile (h : fm.Holds L) (id : ℕ) : (fm.removeFile id).Holds L where
  files := fun j =>
    ⟨by rw [removeFile_data.1, (h.files j).data], (h.files j).fits, (h.files j).storable⟩
  data := by
    rw [removeFile_eq]
    exact h.data
  log := by
    rw [removeFile_eq]
    exact h.log
  write := by
    rw [activeOffset, removeFile_data.2, removeFile_activeFileId]
    exact h.write
  fresh := by
    intro j hj
    rw [removeFile_activeFileId] at hj
    obtain ⟨hlinked, hL⟩ := h.fresh j hj
    refine ⟨?_, hL⟩
    rw [removeFile_eq]
    by_cases hj' : j = id
    · subst hj'
      simp only [Function.update_self]
    · simp only [Function.update_of_ne hj', hlinked]

theorem Indexed.removeFile (h : fm.Indexed L) (id : ℕ) : (fm.removeFile id).Indexed L where
  active := by
    rw [removeFile_eq]
    exact h.active
  tasks := by
    rw [removeFile_eq]
    exact h.tasks
  files := by
    intro j bytes hj
    rw [removeFile_files, removeFile_activeFileId]
    rw [removeFile_eq] at hj
    by_cases hj' : j = id
    · subst hj'
      simp at hj
    · simp only [Function.update_of_ne hj'] at hj
      obtain ⟨hlt, hlog⟩ := h.files j bytes hj
      exact ⟨hlt, fun hmem => hlog (Finset.mem_of_mem_erase hmem)⟩

theorem Registered.removeFile (h : fm.Registered) (hactive : id ≠ fm.activeFileId)
    (hid : id < 2 ^ 32) : (fm.removeFile id).Registered where
  active := by
    rw [removeFile_files, removeFile_activeFileId, Finset.mem_erase]
    exact ⟨hactive.symm, h.active⟩
  linked := by
    intro j
    rw [removeFile_files, Finset.mem_erase, removeFile_eq]
    by_cases hj : j = id
    · subst hj
      simp
    · simp only [Function.update_of_ne hj, h.linked j, ne_eq, hj, not_false_eq_true, true_and]
  le_active := by
    intro j hj
    rw [removeFile_files] at hj
    rw [removeFile_activeFileId]
    exact h.le_active j (Finset.mem_of_mem_erase hj)
  opened := by
    intro j hj
    rw [removeFile_files, Finset.mem_erase]
    rw [removeFile_eq] at hj
    refine ⟨?_, h.opened j (LRUCache.mem_remove hj)⟩
    rintro rfl
    exact h.wf.not_mem_remove () hj
  wf := by
    rw [removeFile_eq]
    exact h.wf.remove
  logged := by
    rw [removeFile_eq]
    exact h.logged.deleteFile hid
  bound := by
    rw [removeFile_activeFileId]
    exact h.bound

/-! ### Background tasks -/

omit [Platform] in
/-- The task of writing an index file may be scheduled again. The index file stays as it is, or
gets what was logged. -/
theorem createIndexFile_cases (id : ℕ) (fm : FileManager) :
    ∃ again ⊆ [Task.createIndexFile id],
      createIndexFile id fm = { fm with tasks := fm.tasks ++ again } ∨
        createIndexFile id fm = { fm with
          tasks := fm.tasks ++ again
          indexFiles := Function.update fm.indexFiles id (some (fm.indexLogs id)) } := by
  unfold createIndexFile
  dsimp only
  split_ifs with hagain
  · refine ⟨_, List.Subset.refl _, ?_⟩
    cases hfile : fm.indexFiles id with
    | none =>
      -- An empty file was created, and the log is empty, too.
      have hlog : fm.indexLogs id = [] := by simpa [hfile] using hagain
      exact Or.inr (by rw [hlog]; rfl)
    | some file =>
      refine Or.inl ?_
      rw [Option.getD_some, ← hfile, Function.update_eq_self]
  · exact ⟨[], List.nil_subset _, Or.inr (by rw [List.append_nil])⟩

omit [Platform] in
/-- A task is taken off. The one of an index file may be scheduled again, or write the file. -/
theorem runTask_cases {i : ℕ} {fm' : FileManager} (h : fm.runTask i = some fm') :
    fm' = { fm with tasks := fm.tasks.eraseIdx i } ∨
      ∃ id again, Task.createIndexFile id ∈ fm.tasks ∧ again ⊆ [Task.createIndexFile id] ∧
        (fm' = { fm with tasks := fm.tasks.eraseIdx i ++ again } ∨
          fm' = { fm with
            tasks := fm.tasks.eraseIdx i ++ again
            indexFiles := Function.update fm.indexFiles id (some (fm.indexLogs id)) }) := by
  unfold runTask at h
  split at h
  · cases h
  · exact Or.inl (Option.some_inj.mp h).symm
  · next id htask =>
    obtain rfl := Option.some_inj.mp h
    obtain ⟨again, hagain, hcases⟩ := createIndexFile_cases id { fm with
      tasks := fm.tasks.eraseIdx i }
    exact Or.inr ⟨id, again, List.mem_of_getElem? htask, hagain, hcases⟩

omit [Platform] in
/-- A background task touches only index files and what is scheduled. -/
theorem runTask_eq {i : ℕ} {fm' : FileManager} (h : fm.runTask i = some fm') :
    ∃ tasks indexFiles, fm' = { fm with tasks, indexFiles } := by
  rcases runTask_cases h with rfl | ⟨id, again, -, -, rfl | rfl⟩
  · exact ⟨_, fm.indexFiles, rfl⟩
  · exact ⟨_, fm.indexFiles, rfl⟩
  · exact ⟨_, _, rfl⟩

omit [Platform] in
/-- A task schedules nothing that was not scheduled. -/
theorem mem_tasks_of_runTask {i : ℕ} {fm' : FileManager} {task : Task}
    (h : fm.runTask i = some fm') (hmem : task ∈ fm'.tasks) : task ∈ fm.tasks := by
  have hagain : ∀ {id again}, Task.createIndexFile id ∈ fm.tasks →
      again ⊆ [Task.createIndexFile id] → task ∈ fm.tasks.eraseIdx i ++ again →
        task ∈ fm.tasks := by
    intro id again hid hsub hmem
    rcases List.mem_append.mp hmem with hmem | hmem
    · exact List.mem_of_mem_eraseIdx hmem
    · exact List.mem_singleton.mp (hsub hmem) ▸ hid
  rcases runTask_cases h with rfl | ⟨id, again, hid, hsub, rfl | rfl⟩
  · exact List.mem_of_mem_eraseIdx hmem
  · exact hagain hid hsub hmem
  · exact hagain hid hsub hmem

omit [Platform] in
/-- An index file was there, or a task has written the log of its file. -/
theorem indexFiles_of_runTask {i id : ℕ} {fm' : FileManager} {bytes : Bytes}
    (h : fm.runTask i = some fm') (hfile : fm'.indexFiles id = some bytes) :
    fm.indexFiles id = some bytes ∨
      Task.createIndexFile id ∈ fm.tasks ∧ bytes = fm.indexLogs id := by
  rcases runTask_cases h with rfl | ⟨j, again, hj, -, rfl | rfl⟩
  · exact Or.inl hfile
  · exact Or.inl hfile
  · by_cases hid : id = j
    · subst hid
      dsimp only at hfile
      rw [Function.update_self] at hfile
      exact Or.inr ⟨hj, (Option.some_inj.mp hfile).symm⟩
    · dsimp only at hfile
      rw [Function.update_of_ne hid] at hfile
      exact Or.inl hfile

theorem Holds.runTask {i : ℕ} {fm' : FileManager} (h : fm.Holds L)
    (hrun : fm.runTask i = some fm') : fm'.Holds L := by
  obtain ⟨tasks, indexFiles, rfl⟩ := runTask_eq hrun
  exact ⟨⟨h.files, h.data, h.log, h.write⟩, h.fresh⟩

theorem Registered.runTask {i : ℕ} {fm' : FileManager} (h : fm.Registered)
    (hrun : fm.runTask i = some fm') : fm'.Registered := by
  obtain ⟨tasks, indexFiles, rfl⟩ := runTask_eq hrun
  exact ⟨h.active, h.linked, h.le_active, h.opened, h.wf, h.logged, h.bound⟩

theorem Indexed.runTask {i : ℕ} {fm' : FileManager} (h : fm.Indexed L)
    (hrun : fm.runTask i = some fm') : fm'.Indexed L := by
  have htasks : ∀ task ∈ fm'.tasks, task ∈ fm.tasks := fun _ => mem_tasks_of_runTask hrun
  have hfiles := fun id bytes => @indexFiles_of_runTask fm i id fm' bytes hrun
  obtain ⟨tasks, indexFiles, rfl⟩ := runTask_eq hrun
  refine ⟨h.active, fun id hid => h.tasks id (htasks _ hid), fun id bytes hid => ?_⟩
  rcases hfiles id bytes hid with hid | ⟨htask, rfl⟩
  · exact h.files id bytes hid
  · obtain ⟨hlt, hlog⟩ := h.tasks id htask
    exact ⟨hlt, fun _ => hlog⟩

end PedroDB.FileManager
