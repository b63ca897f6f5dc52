import PedroDB.DBImpl
import PedroDB.Files

/-!
# Sound states of the database

In a sound state every index entry points at a record of its key, in a registered file.
Each atomic section of `HandlePut`, `HandleGet` and `Compact` keeps the state sound; the
removal of a file does so only under a condition.

## Main definitions

* `Write.Representable` — what a record header can represent
* `DBImpl.Sound` — the state agrees with the records in the data files

## Main results

* `DBImpl.find_updateIndex`, `DBImpl.find_compactInstall` — the index after an update
* `DBImpl.Sound.handlePut_eq` — `HandlePut` is an `Append` and an index update
* `DBImpl.Sound.appended`, `updateIndex`, `compactInstall`, `compactFinish` — the
  sections keep the state sound
-/

namespace PedroDB

variable [Platform] {opt : Options}

/-- The key and the stored value are short enough for the fields of a header. -/
structure Write.Representable (opt : Options) (w : Write) : Prop where
  key : w.key.length ≤ 255
  size : (DBImpl.entryOf opt w).size < 2 ^ 32

instance (opt : Options) (w : Write) : Decidable (w.Representable opt) :=
  decidable_of_iff (w.key.length ≤ 255 ∧ (DBImpl.entryOf opt w).size < 2 ^ 32)
    ⟨fun h => ⟨h.1, h.2⟩, fun h => ⟨h.key, h.size⟩⟩

/-- Every record was built by `HandlePut`. -/
def Log.Written (opt : Options) (L : Log) : Prop :=
  ∀ id, ∀ e ∈ L id, ∃ w, e = DBImpl.entryOf opt w

theorem Log.Written.add {L : Log} {id : ℕ} {e : Entry} (h : L.Written opt)
    (he : ∃ w, e = DBImpl.entryOf opt w) : (L.add id e).Written opt := by
  intro j x hx
  by_cases hj : j = id
  · subst hj
    rw [Log.add, Function.update_self] at hx
    rcases List.mem_append.mp hx with hx | hx
    · exact h j x hx
    · exact List.mem_singleton.mp hx ▸ he
  · rw [Log.add, Function.update_of_ne hj] at hx
    exact h j x hx

namespace DBImpl

variable {db : DBImpl} {L : Log} {w : Write} {loc : Location} {key : Key} {dir : Dir} {e : Entry}

theorem entryOf_storable (hkey : w.key.length ≤ 255)
    (hsize : (entryOf opt w).size ≤ kMaxFileBytes) : (entryOf opt w).Storable where
  type := by
    simp only [entryOf]
    split_ifs
    · exact Or.inr rfl
    · exact Or.inl rfl
  key := hkey
  size := hsize

/-- What is not refused, as far as its size goes. -/
theorem prepare_of_le (hro : db.readonly = false)
    (hle : (entryOf opt w).sizeOf ≤ kMaxFileBytes) : prepare opt w db = .ok (entryOf opt w) := by
  rw [prepare, hro, if_neg Bool.false_ne_true, if_neg (not_lt.mpr hle)]

/-- A record within the limits is not refused. -/
theorem prepare_eq (hro : db.readonly = false) (hs : (entryOf opt w).Storable) :
    prepare opt w db = .ok (entryOf opt w) :=
  prepare_of_le hro (hs.sizeOf_eq ▸ hs.size)

@[simp] theorem entryOf_key : (entryOf opt w).key = w.key := rfl

theorem entryOf_type : (entryOf opt w).type = if w.value = [] then .kDelete else .kSet := rfl

theorem entryOf_kSet : (entryOf opt w).type = .kSet ↔ w.value ≠ [] := by
  rw [entryOf_type]
  split_ifs with h <;> simp [h]

theorem entryOf_validate : (entryOf opt w).validate = true := by
  simp [Entry.validate, entryOf]

theorem userValue_stored (v : Bytes) : userValue opt (stored opt v) = some v := by
  unfold userValue stored
  split_ifs
  · exact Platform.uncompress_compress v
  · rfl

theorem replyOf_entryOf : replyOf opt (entryOf opt w) = ⟨.kOk, some w.value⟩ := by
  rw [replyOf, if_pos entryOf_validate]
  simp only [entryOf, userValue_stored]

/-! ### The index after an update -/

section Find

variable {d : Dir} {k : Key}

omit [Platform] in
theorem find_insert : ({ db with indices := db.indices.insert k d } : DBImpl).find key =
    if key = k then some d else db.find key := by
  split_ifs with h
  · subst h
    exact AList.lookup_insert _
  · exact AList.lookup_insert_ne h

omit [Platform] in
theorem find_erase : ({ db with indices := db.indices.erase k } : DBImpl).find key =
    if key = k then none else db.find key := by
  split_ifs with h
  · subst h
    exact AList.lookup_erase _ _
  · exact AList.lookup_erase_ne h

omit [Platform] in
/-- `UpdateUnused` only keeps count. -/
theorem updateUnused_eq (opt : Options) (loc : Location) (n : ℕ) (db : DBImpl) : ∃ tasks states,
    updateUnused opt loc n db = { db with compactTasks := tasks, fileStates := states } := by
  unfold updateUnused
  dsimp only
  split_ifs
  · exact ⟨_, _, rfl⟩
  · exact ⟨_, _, rfl⟩

omit [Platform] in
@[simp] theorem find_updateUnused (opt : Options) (loc : Location) (n : ℕ) (db : DBImpl) :
    (updateUnused opt loc n db).find = db.find := by
  obtain ⟨tasks, states, heq⟩ := updateUnused_eq opt loc n db
  rw [heq]
  rfl

/-- All that a write does to the state once its record is in the log. -/
theorem updateIndex_eq (opt : Options) (w : Write) (loc : Location) (db : DBImpl) :
    ∃ tasks states indices,
    (updateIndex opt w loc db).2 =
        { db with
          maxFile := max db.maxFile loc.id
          compactTasks := tasks
          fileStates := states
          indices } ∧
      ∀ key, indices.lookup key =
        if key = w.key then
          if w.value = [] then none else some { entry_size := (entryOf opt w).sizeOf, loc }
        else db.find key := by
  simp only [updateIndex]
  have hfind : ({ db with maxFile := max db.maxFile loc.id } : DBImpl).find w.key =
      db.find w.key := rfl
  rcases hold : db.find w.key with _ | old <;> rw [hold] at hfind <;> simp only [hfind]
  · -- The key is new.
    by_cases hv : w.value = []
    · obtain ⟨tasks, states, heq⟩ :=
        updateUnused_eq opt loc (entryOf opt w).sizeOf
          { db with maxFile := max db.maxFile loc.id }
      refine ⟨tasks, states, db.indices, by rw [if_pos hv, heq], fun key => ?_⟩
      split_ifs with hkey
      · exact hkey ▸ hold
      · rfl
    · refine ⟨db.compactTasks, db.fileStates, db.indices.insert w.key _, by rw [if_neg hv],
        fun key => ?_⟩
      rw [if_neg hv]
      exact find_insert
  · -- The key was there, and its old record is unused from now on.
    obtain ⟨tasks, states, heq⟩ :=
      updateUnused_eq opt old.loc old.entry_size
        { db with maxFile := max db.maxFile loc.id }
    simp only [heq]
    by_cases hv : w.value = []
    · refine ⟨tasks, states, db.indices.erase w.key, by rw [if_pos hv], fun key => ?_⟩
      rw [if_pos hv]
      exact find_erase
    · refine ⟨tasks, states, (db.indices.erase w.key).insert w.key _, by rw [if_neg hv],
        fun key => ?_⟩
      rw [if_neg hv]
      refine (@find_insert { db with indices := db.indices.erase w.key } key
        { entry_size := (entryOf opt w).sizeOf, loc } w.key).trans ?_
      split_ifs with hkey
      · rfl
      · exact find_erase.trans (if_neg hkey)

theorem find_updateIndex : (updateIndex opt w loc db).2.find key =
    if key = w.key then
      if w.value = [] then none else some { entry_size := (entryOf opt w).sizeOf, loc }
    else db.find key := by
  obtain ⟨tasks, states, indices, heq, hlookup⟩ := updateIndex_eq opt w loc db
  rw [heq]
  exact hlookup key

@[simp] theorem updateIndex_fileManager :
    (updateIndex opt w loc db).2.fileManager = db.fileManager := by
  obtain ⟨_, _, _, heq, -⟩ := updateIndex_eq opt w loc db
  rw [heq]

@[simp] theorem updateIndex_maxFile :
    (updateIndex opt w loc db).2.maxFile = max db.maxFile loc.id := by
  obtain ⟨_, _, _, heq, -⟩ := updateIndex_eq opt w loc db
  rw [heq]

@[simp] theorem updateIndex_readonly : (updateIndex opt w loc db).2.readonly = db.readonly := by
  obtain ⟨_, _, _, heq, -⟩ := updateIndex_eq opt w loc db
  rw [heq]

@[simp] theorem updateIndex_readCache : (updateIndex opt w loc db).2.readCache = db.readCache := by
  obtain ⟨_, _, _, heq, -⟩ := updateIndex_eq opt w loc db
  rw [heq]

/-- A write reports `kNotFound` if it deletes an absent key. -/
theorem updateIndex_status : (updateIndex opt w loc db).1 =
    if w.value = [] ∧ db.find w.key = none then .kNotFound else .kOk := by
  simp only [updateIndex]
  have hfind : ({ db with maxFile := max db.maxFile loc.id } : DBImpl).find w.key =
      db.find w.key := rfl
  rcases hold : db.find w.key with _ | old <;> rw [hold] at hfind <;> simp only [hfind]
  · by_cases hv : w.value = [] <;> simp [hv]
  · simp

omit [Platform] in
/-- The copy is installed if it is behind the record that the index points at. -/
theorem find_compactInstall {next : Entry} : (compactInstall next loc db).find key =
    if key = next.key ∧ ∃ dir ∈ db.find key, dir.loc < loc then
      some { entry_size := next.sizeOf, loc }
    else db.find key := by
  unfold compactInstall
  rcases hold : db.find next.key with _ | old
  · rw [if_neg]
    rintro ⟨rfl, dir, hdir, -⟩
    simp [hold] at hdir
  · dsimp only
    split_ifs with hlt hcond hcond
    · obtain ⟨rfl, -⟩ := hcond
      exact AList.lookup_insert _
    · refine AList.lookup_insert_ne fun hkey => hcond ⟨hkey, old, ?_, hlt⟩
      rw [hkey, hold]
      rfl
    · obtain ⟨rfl, dir, hdir, hlt'⟩ := hcond
      rw [hold, Option.mem_some_iff] at hdir
      exact absurd (hdir ▸ hlt') hlt
    · rfl

omit [Platform] in
/-- A copy behind the record that the index points at is installed. -/
theorem compactInstall_of_lt {next : Entry} (hfind : db.find next.key = some dir)
    (hlt : dir.loc < loc) : compactInstall next loc db =
      { db with indices := db.indices.insert next.key { entry_size := next.sizeOf, loc } } := by
  simp only [compactInstall, hfind, if_pos hlt]

omit [Platform] in
/-- All that the installation of a copy does to the state. -/
theorem compactInstall_eq (next : Entry) (loc : Location) (db : DBImpl) : ∃ states indices,
    compactInstall next loc db = { db with fileStates := states, indices } := by
  unfold compactInstall
  split
  · exact ⟨_, _, rfl⟩
  · dsimp only
    split_ifs
    · exact ⟨_, _, rfl⟩
    · exact ⟨_, _, rfl⟩

omit [Platform] in
@[simp] theorem compactInstall_fileManager (next : Entry) (loc : Location) (db : DBImpl) :
    (compactInstall next loc db).fileManager = db.fileManager := by
  obtain ⟨_, _, heq⟩ := compactInstall_eq next loc db
  rw [heq]

end Find

/-! ### Sound states -/

/-- The data files hold the records of the log; each index entry points at a set record of
its key, in a registered file. -/
structure Sound (db : DBImpl) (L : Log) : Prop where
  holds : db.fileManager.Holds L
  indexed : db.fileManager.Indexed L
  registered : db.fileManager.Registered
  pointed : ∀ key dir, db.find key = some dir →
    ∃ e, Located L dir.loc e ∧ e.key = key ∧ e.type = .kSet ∧ dir.entry_size = e.size
  kept : ∀ key dir, db.find key = some dir → dir.loc.id ∈ db.fileManager.metadata.files
  writable : db.readonly = false
  max : db.maxFile ≤ db.fileManager.activeFileId

namespace Sound

theorem storable (h : db.Sound L) (hloc : Located L loc e) : e.Storable :=
  (h.holds.files loc.id).storable e hloc.mem

/-- An index entry points at a record that `HandlePut` wrote for its key. -/
theorem live_entry (h : db.Sound L) (hw : L.Written opt) (hfind : db.find key = some dir) :
    ∃ w, Located L dir.loc (entryOf opt w) ∧ w.key = key ∧ w.value ≠ [] ∧
      dir.entry_size = (entryOf opt w).size ∧ (entryOf opt w).Storable := by
  obtain ⟨e, hloc, hkey, htype, hsize⟩ := h.pointed key dir hfind
  obtain ⟨w, rfl⟩ := hw dir.loc.id e hloc.mem
  exact ⟨w, hloc, hkey, entryOf_kSet.mp htype, hsize, h.storable hloc⟩

/-- The file of a record that is looked up is not behind the active one. -/
theorem id_le_active (h : db.Sound L) (hfind : db.find key = some dir) :
    dir.loc.id ≤ db.fileManager.activeFileId :=
  h.registered.le_active _ (h.kept key dir hfind)

/-- Changes to the index that only add entries for records of registered files. -/
theorem reindex {db' : DBImpl} (h : db.Sound L) (hfm : db'.fileManager = db.fileManager)
    (hro : db'.readonly = db.readonly) (hmax : db'.maxFile ≤ db.fileManager.activeFileId)
    (hfind : ∀ key dir, db'.find key = some dir → db.find key = some dir ∨
      dir.loc.id ∈ db.fileManager.metadata.files ∧
        ∃ e, Located L dir.loc e ∧ e.key = key ∧ e.type = .kSet ∧ dir.entry_size = e.size) :
    db'.Sound L where
  holds := hfm ▸ h.holds
  indexed := hfm ▸ h.indexed
  registered := hfm ▸ h.registered
  pointed := fun key dir hdir => (hfind key dir hdir).elim (h.pointed key dir) fun h' => h'.2
  kept := fun key dir hdir => by
    rw [hfm]
    exact (hfind key dir hdir).elim (h.kept key dir) fun h' => h'.1
  writable := hro ▸ h.writable
  max := hfm ▸ hmax

/-- Changes to the files that keep every record and every registration. -/
theorem refile {fm : FileManager} {L' : Log} (h : db.Sound L) (hholds : fm.Holds L')
    (hindexed : fm.Indexed L') (hreg : fm.Registered)
    (hloc : ∀ loc e, Located L loc e → Located L' loc e)
    (hfiles : ∀ key dir, db.find key = some dir → dir.loc.id ∈ fm.metadata.files)
    (hactive : db.fileManager.activeFileId ≤ fm.activeFileId) :
    ({ db with fileManager := fm } : DBImpl).Sound L' where
  holds := hholds
  indexed := hindexed
  registered := hreg
  pointed := fun key dir hdir => by
    obtain ⟨e, he, hrest⟩ := h.pointed key dir hdir
    exact ⟨e, hloc _ _ he, hrest⟩
  kept := hfiles
  writable := h.writable
  max := h.max.trans hactive

/-- The file manager has rolled over, and appended nothing yet. -/
theorem rolled (h : db.Sound L) (hwrap : db.fileManager.activeFileId + 1 < 2 ^ 32) :
    ({ db with fileManager := db.fileManager.rolled } : DBImpl).Sound L := by
  have hfresh := (h.holds.fresh _ (Nat.lt_succ_self _)).2
  refine h.refile h.holds.rolled (h.indexed.rolled hfresh) (h.registered.rolled hwrap)
    (fun _ _ hx => hx) (fun key dir hdir => ?_) (Nat.le_succ _)
  simp only [FileManager.rolled, MetadataManager.createFile_files, Finset.mem_insert]
  exact Or.inr (h.kept key dir hdir)

/-- A record in front of `Append` is appended. -/
theorem appended (h : db.Sound L) (hs : e.Storable) (hwrap : ¬ db.fileManager.Wraps e) :
    ({ db with fileManager := db.fileManager.appended e } : DBImpl).Sound
      (L.add (db.fileManager.nextLoc e).id e) := by
  exact h.refile (h.holds.appended hs) (h.indexed.appended h.holds) (h.registered.appended hwrap)
    (fun _ _ hx => hx.add _ _)
    (fun key dir hdir => FileManager.files_subset_appended (h.kept key dir hdir))
    FileManager.activeFileId_le_appended

/-- `HandlePut` refuses a record that is longer than a file. -/
theorem handlePut_refused (h : db.Sound L) (hw : w.Representable opt)
    (hbig : kMaxFileBytes < (entryOf opt w).size) :
    handlePut opt .sound w db = some (.kNotSupported, db) := by
  have hsize : (entryOf opt w).sizeOf = (entryOf opt w).size := u32_of_lt hw.size
  have hprep : prepare opt w db = .error .kNotSupported := by
    simp [prepare, h.writable, hsize, hbig]
  simp only [handlePut, hprep]

/-- `HandlePut` is an `Append` and an index update. -/
theorem handlePut_eq (h : db.Sound L) (hs : (entryOf opt w).Storable)
    (hwrap : ¬ db.fileManager.Wraps (entryOf opt w)) :
    handlePut opt .sound w db =
      some (DBImpl.updateIndex opt w (db.fileManager.nextLoc (entryOf opt w))
        { db with fileManager := db.fileManager.appended (entryOf opt w) }) := by
  simp only [handlePut, prepare_eq h.writable hs, h.holds.append_eq hs hwrap]

/-- Updating the index for a record of the log. -/
theorem updateIndex (h : db.Sound L) (hloc : Located L loc (entryOf opt w))
    (hfile : loc.id ∈ db.fileManager.metadata.files) :
    (DBImpl.updateIndex opt w loc db).2.Sound L := by
  refine h.reindex updateIndex_fileManager updateIndex_readonly ?_ ?_
  · rw [updateIndex_maxFile]
    exact Nat.max_le.mpr ⟨h.max, h.registered.le_active _ hfile⟩
  · intro key dir hdir
    rw [find_updateIndex] at hdir
    split_ifs at hdir with hkey hv
    · obtain rfl := Option.some_inj.mp hdir
      exact Or.inr ⟨hfile, _, hloc, hkey.symm, entryOf_kSet.mpr hv, (h.storable hloc).sizeOf_eq⟩
    · exact Or.inl hdir

/-- Installing a copy of a record. -/
theorem compactInstall {next : Entry} (h : db.Sound L) (hloc : Located L loc next)
    (htype : next.type = .kSet) (hfile : loc.id ∈ db.fileManager.metadata.files) :
    (DBImpl.compactInstall next loc db).Sound L := by
  obtain ⟨states, indices, heq⟩ := compactInstall_eq next loc db
  refine h.reindex (by rw [heq]) (by rw [heq]) (by rw [heq]; exact h.max) ?_
  intro key dir hdir
  rw [find_compactInstall] at hdir
  split_ifs at hdir with hcond
  · obtain rfl := Option.some_inj.mp hdir
    exact Or.inr ⟨hfile, next, hloc, hcond.1.symm, htype, (h.storable hloc).sizeOf_eq⟩
  · exact Or.inl hdir

/-- Opening a file. -/
theorem acquireDataFile (h : db.Sound L) {o : LRUCache ℕ Unit}
    (hreg : ({ db.fileManager with openFiles := o } : FileManager).Registered) :
    ({ db with fileManager := { db.fileManager with openFiles := o } } : DBImpl).Sound L :=
  h.refile (h.holds.openFiles o) (h.indexed.openFiles o) hreg (fun _ _ hx => hx) h.kept
    le_rfl

/-- Compaction begins with the files that are registered. -/
theorem compactStart_eq (h : db.Sound L) (id : ℕ) :
    ∃ o, compactStart id db =
        (if id ∈ db.fileManager.metadata.files then .mark id else .idle,
          { db with fileManager := { db.fileManager with openFiles := o } }) ∧
      ({ db with fileManager := { db.fileManager with openFiles := o } } : DBImpl).Sound L := by
  obtain ⟨o, hopen, hreg⟩ := h.registered.acquireDataFile_eq id
  have hwritable : ¬ db.readonly = true := by simp [h.writable]
  refine ⟨o, ?_, h.acquireDataFile hreg⟩
  rw [compactStart, if_neg hwritable, hopen]
  split_ifs <;> rfl

/-- Removing a file that is not active and that no index entry points into. -/
theorem compactFinish {id : ℕ} (h : db.Sound L)
    (hactive : id ≠ db.fileManager.activeFileId) (hid : id < 2 ^ 32)
    (hlive : ∀ key dir, db.find key = some dir → dir.loc.id ≠ id) :
    (DBImpl.compactFinish id db).Sound L := by
  have hkept : ∀ key dir, db.find key = some dir →
      dir.loc.id ∈ (db.fileManager.removeFile id).metadata.files := by
    intro key dir hdir
    rw [FileManager.removeFile_files, Finset.mem_erase]
    exact ⟨hlive key dir hdir, h.kept key dir hdir⟩
  have := h.refile (h.holds.removeFile id) (h.indexed.removeFile id)
    (h.registered.removeFile hactive hid) (fun _ _ hx => hx) hkept
    FileManager.removeFile_activeFileId.ge
  exact this.reindex rfl rfl this.max fun key dir hdir => Or.inl hdir

/-- A background task. -/
theorem runTask {i : ℕ} {fm : FileManager} (h : db.Sound L)
    (hrun : db.fileManager.runTask i = some fm) :
    ({ db with fileManager := fm } : DBImpl).Sound L := by
  obtain ⟨tasks, indexFiles, heq⟩ := FileManager.runTask_eq hrun
  refine h.refile (h.holds.runTask hrun) (h.indexed.runTask hrun) (h.registered.runTask hrun)
    (fun _ _ hx => hx) ?_ ?_
  · rw [heq]
    exact h.kept
  · rw [heq]

end Sound

end DBImpl
end PedroDB
