import PedroDB.Theorems.Crashes
import PedroDB.WriteRuns

/-!
# Index files of sealed files

When a data file is sealed, `CreateFile` hands two tasks to the executor, and one of them is to
write the index file. A task that fails is scheduled again. The executor may run the tasks in any
order and at any time, and none of them is ever scheduled again: whenever all of them have been
run, each data file that was sealed and not removed has an index file that lists its records.

## Main definitions

* `Task.file` — the data file of a task
* `FileManager.Tended` — what holds of the scheduled tasks

## Main results

* `FileManager.Tended.runTask_eq` — what a task does
* `Session.Inv.tended_step` — what holds of the tasks holds after each step
* `Session.indexed_of_crashes` — the tasks and the index files after any run
-/

namespace PedroDB

open Transition Framing

/-- The data file that a task is about. -/
def Task.file : Task → ℕ
  | .syncFile id => id
  | .createIndexFile id => id

/-- In a list without duplicates, what is erased at a position is gone. -/
theorem mem_eraseIdx_of_nodup {α : Type*} {xs : List α} {x y : α} {i : ℕ} (h : xs.Nodup)
    (hx : xs[i]? = some x) : y ∈ xs.eraseIdx i ↔ y ∈ xs ∧ y ≠ x := by
  classical
  obtain ⟨hi, rfl⟩ := List.getElem?_eq_some_iff.mp hx
  rw [← h.erase_getElem i hi, h.mem_erase_iff, and_comm]

namespace FileManager

variable [Platform] {fm fm' : FileManager} {L : Log} {e : Entry} {first i id : ℕ}

/-- Each task is scheduled once, for a sealed file; the index files to write are not there yet
and have something to list. Of the sealed files from `first` on, those without index file have a
task to write it. -/
structure Tended (first : ℕ) (fm : FileManager) (L : Log) : Prop where
  once : fm.tasks.Nodup
  behind : ∀ task ∈ fm.tasks, task.file < fm.activeFileId
  absent : ∀ id, Task.createIndexFile id ∈ fm.tasks → fm.indexFiles id = none
  written : ∀ id, Task.createIndexFile id ∈ fm.tasks → L id ≠ []
  scheduled : ∀ id ∈ fm.metadata.files, first ≤ id → id < fm.activeFileId →
    fm.indexFiles id = none → Task.createIndexFile id ∈ fm.tasks

namespace Tended

omit [Platform] in
theorem of_tasks_nil (htasks : fm.tasks = []) (hfirst : fm.activeFileId ≤ first) :
    Tended first fm L := by
  refine ⟨by simp [htasks], by simp [htasks], by simp [htasks], by simp [htasks], ?_⟩
  intro id _ hle hlt
  exact absurd (hlt.trans_le hfirst) (Nat.not_lt.mpr hle)

omit [Platform] in
/-- From the active file on, no file is sealed. -/
theorem from_active (h : Tended first fm L) : Tended fm.activeFileId fm L where
  once := h.once
  behind := h.behind
  absent := h.absent
  written := h.written
  scheduled := fun _ _ hle hlt => absurd hlt (Nat.not_lt.mpr hle)

omit [Platform] in
/-- The open files do not matter. -/
theorem openFiles (h : Tended first fm L) (o : LRUCache ℕ Unit) :
    Tended first { fm with openFiles := o } L :=
  ⟨h.once, h.behind, h.absent, h.written, h.scheduled⟩

theorem addRecord (h : Tended first fm L) : Tended first (addRecord id e fm) (L.add id e) where
  once := h.once
  behind := h.behind
  absent := h.absent
  written := by
    intro j hj
    by_cases hid : j = id
    · rw [hid, Log.add, Function.update_self]
      simp
    · rw [Log.add, Function.update_of_ne hid]
      exact h.written j hj
  scheduled := h.scheduled

/-- The tasks of a file that is sealed are new. -/
theorem rolled (h : Tended first fm L) (hindexed : fm.Indexed L)
    (hwritten : L fm.activeFileId ≠ []) : Tended first fm.rolled L := by
  have hmem : ∀ {id}, Task.createIndexFile id ∈ fm.rolled.tasks ↔
      Task.createIndexFile id ∈ fm.tasks ∨ id = fm.activeFileId := by
    intro id
    simp [FileManager.rolled]
  refine ⟨?_, fun task htask => ?_, fun id hid => ?_, fun id hid => ?_, fun id hid hle hlt hnone => ?_⟩
  · refine List.nodup_append.mpr ⟨h.once, by simp, fun task htask task' htask' => ?_⟩
    rintro rfl
    have hlt := h.behind task htask
    simp only [List.mem_cons, List.not_mem_nil, or_false] at htask'
    rcases htask' with rfl | rfl
    · exact lt_irrefl _ hlt
    · exact lt_irrefl _ hlt
  · simp only [FileManager.rolled, List.mem_append, List.mem_cons, List.not_mem_nil,
      or_false] at htask
    refine Nat.lt_succ_of_le ?_
    rcases htask with htask | rfl | rfl
    · exact (h.behind task htask).le
    · exact le_rfl
    · exact le_rfl
  · rcases hmem.mp hid with hid | rfl
    · exact h.absent id hid
    · -- An index file belongs to a file that is sealed already.
      refine Option.eq_none_iff_forall_ne_some.mpr fun bytes hbytes => ?_
      exact lt_irrefl _ (hindexed.files _ bytes hbytes).1
  · rcases hmem.mp hid with hid | rfl
    · exact h.written id hid
    · exact hwritten
  · rw [hmem]
    have hlt : id < fm.activeFileId + 1 := hlt
    rcases Nat.lt_succ_iff_lt_or_eq.mp hlt with hlt' | rfl
    · refine Or.inl (h.scheduled id ?_ hle hlt' hnone)
      simp only [FileManager.rolled, MetadataManager.createFile_files, Finset.mem_insert] at hid
      exact hid.resolve_left hlt.ne
    · exact Or.inr rfl

/-- `Append` seals only files that have a record. -/
theorem appended (h : Tended first fm L) (hholds : fm.Holds L) (hindexed : fm.Indexed L)
    (hsize : e.size ≤ kMaxFileBytes) : Tended first (fm.appended e) (L.add (fm.nextLoc e).id e) := by
  unfold FileManager.appended nextLoc
  split_ifs with hfits
  · exact h.addRecord
  · refine (h.rolled hindexed fun hnil => hfits ?_).addRecord
    rw [Fits, hholds.write, hnil]
    exact (Nat.zero_add _).trans_le hsize

theorem removeFile (h : Tended first fm L) (id : ℕ) : Tended first (fm.removeFile id) L := by
  rw [removeFile_eq]
  refine ⟨h.once, h.behind, fun j hj => ?_, h.written, fun j hj hle hlt hnone => ?_⟩
  · by_cases hid : j = id
    · simp only [hid, Function.update_self]
    · simp only [Function.update_of_ne hid]
      exact h.absent j hj
  · rw [MetadataManager.deleteFile_files, Finset.mem_erase] at hj
    simp only [Function.update_of_ne hj.1] at hnone
    exact h.scheduled j hj.2 hle hlt hnone

/-- A task is taken off, and one for an index file writes it. -/
theorem runTask_eq (h : Tended first fm L) (hindexed : fm.Indexed L)
    (hrun : fm.runTask i = some fm') : ∃ task, fm.tasks[i]? = some task ∧
      ((∃ id, task = .syncFile id ∧ fm' = { fm with tasks := fm.tasks.eraseIdx i }) ∨
        ∃ id, task = .createIndexFile id ∧ fm' = { fm with
          tasks := fm.tasks.eraseIdx i
          indexFiles := Function.update fm.indexFiles id (some (packLog (L id))) }) := by
  unfold runTask at hrun
  split at hrun
  · cases hrun
  · next id htask => exact ⟨_, htask, Or.inl ⟨id, rfl, (Option.some_inj.mp hrun).symm⟩⟩
  · next id htask =>
    have hmem := List.mem_of_getElem? htask
    refine ⟨_, htask, Or.inr ⟨id, rfl, ?_⟩⟩
    rw [← Option.some_inj.mp hrun, createIndexFile]
    dsimp only
    rw [(hindexed.tasks id hmem).2, h.absent id hmem, if_neg]
    rw [packLog_eq_nil_iff]
    simpa using h.written id hmem

theorem runTask (h : Tended first fm L) (hindexed : fm.Indexed L)
    (hrun : fm.runTask i = some fm') :
    Tended first fm' L ∧ fm'.tasks.length + 1 = fm.tasks.length := by
  obtain ⟨task, htask, hcases⟩ := h.runTask_eq hindexed hrun
  have hlt := (List.getElem?_eq_some_iff.mp htask).1
  have hmem : ∀ task', task' ∈ fm.tasks.eraseIdx i ↔ task' ∈ fm.tasks ∧ task' ≠ task := fun _ =>
    mem_eraseIdx_of_nodup h.once htask
  have hlength : (fm.tasks.eraseIdx i).length + 1 = fm.tasks.length := by
    rw [List.length_eraseIdx_of_lt hlt]
    omega
  have honce := h.once.sublist (List.eraseIdx_sublist fm.tasks i)
  rcases hcases with ⟨id, rfl, rfl⟩ | ⟨id, rfl, rfl⟩
  · refine ⟨⟨honce, fun x hx => h.behind x ((hmem x).mp hx).1,
      fun j hj => h.absent j ((hmem _).mp hj).1, fun j hj => h.written j ((hmem _).mp hj).1,
      fun j hj hle hlt hnone => (hmem _).mpr ⟨h.scheduled j hj hle hlt hnone, by simp⟩⟩, hlength⟩
  · have hne : ∀ {j}, Task.createIndexFile j ∈ fm.tasks.eraseIdx i → j ≠ id := fun hj heq =>
      ((hmem _).mp hj).2 (by rw [heq])
    refine ⟨⟨honce, fun x hx => h.behind x ((hmem x).mp hx).1, fun j hj => ?_,
      fun j hj => h.written j ((hmem _).mp hj).1, fun j hj hle hlt hnone => ?_⟩, hlength⟩
    · simp only [Function.update_of_ne (hne hj)]
      exact h.absent j ((hmem _).mp hj).1
    · -- The file whose index file was just written needs no task any more.
      by_cases hid : j = id
      · simp only [hid, Function.update_self] at hnone
        cases hnone
      · simp only [Function.update_of_ne hid] at hnone
        refine (hmem _).mpr ⟨h.scheduled j hj hle hlt hnone, ?_⟩
        simpa using hid

/-- Tasks run one after another, in any order. -/
theorem runTasks {is : List ℕ} (h : Tended first fm L) (hindexed : fm.Indexed L)
    (hrun : Run (fun fm i => fm.runTask i) fm is fm') :
    (Tended first fm' L ∧ fm'.Indexed L ∧ fm'.metadata = fm.metadata ∧
      fm'.activeFileId = fm.activeFileId) ∧ is.length + fm'.tasks.length = fm.tasks.length := by
  refine hrun.history (g := fun _ _ => True) (P := fun is fm' => (Tended first fm' L ∧
    fm'.Indexed L ∧ fm'.metadata = fm.metadata ∧ fm'.activeFileId = fm.activeFileId) ∧
      is.length + fm'.tasks.length = fm.tasks.length) (fun _ _ _ _ _ _ => trivial)
    ⟨⟨h, hindexed, rfl, rfl⟩, by simp⟩ ?_
  rintro is u i v ⟨⟨hu, huindexed, hmetadata, hactive⟩, hlength⟩ - hstep
  obtain ⟨hv, hlength'⟩ := hu.runTask huindexed hstep
  obtain ⟨tasks, indexFiles, heq⟩ := FileManager.runTask_eq hstep
  refine ⟨⟨hv, huindexed.runTask hstep, ?_, ?_⟩, ?_⟩
  · rw [heq]
    exact hmetadata
  · rw [heq]
    exact hactive
  · rw [List.length_append, List.length_singleton]
    omega

/-- All tasks can be run. -/
theorem exists_runTasks (h : Tended first fm L) (hindexed : fm.Indexed L) :
    ∃ is fm', Run (fun fm i => FileManager.runTask i fm) fm is fm' ∧ fm'.tasks = [] := by
  induction hn : fm.tasks.length generalizing fm with
  | zero => exact ⟨[], fm, run_nil.mpr rfl, List.length_eq_zero_iff.mp hn⟩
  | succ n ih =>
    obtain ⟨fm₁, hstep⟩ : ∃ fm₁, fm.runTask 0 = some fm₁ := by
      cases htasks : fm.tasks with
      | nil => simp [htasks] at hn
      | cons task tasks => cases task <;> exact ⟨_, by rw [FileManager.runTask, htasks]; rfl⟩
    obtain ⟨h₁, hlength⟩ := h.runTask hindexed hstep
    obtain ⟨is, fm', hrun, hnil⟩ := ih h₁ (hindexed.runTask hstep) (by omega)
    exact ⟨0 :: is, fm', run_cons.mpr ⟨fm₁, hstep, hrun⟩, hnil⟩

end Tended
end FileManager

namespace Session

section

variable [Platform] {opt : Options} {name : Bytes} {fs : List Fate} {as : List Action}
  {s s' t : Session} {a : Action} {L L' : Log} {first : ℕ}

open FileManager in
/-- What holds of the tasks holds after each step. -/
theorem Inv.tended_step (h : Inv opt s L) (htended : Tended first s.db.fileManager L)
    (he : Effect opt s L a s' L') : Tended first s'.db.fileManager L' := by
  have hsound := h.sound
  cases he with
  | refused => exact htended
  | write _ hs =>
    dsimp only
    rw [DBImpl.updateIndex_fileManager]
    exact htended.appended hsound.holds hsound.indexed hs.size
  | get _ hdb =>
    rw [hdb]
    exact htended.openFiles _
  | compact => exact htended
  | read _ _ hdb =>
    rw [hdb]
    exact htended.openFiles _
  | append _ _ hs => exact htended.appended hsound.holds hsound.indexed hs.size
  | install =>
    dsimp only
    rw [DBImpl.compactInstall_fileManager]
    exact htended
  | finish => exact htended.removeFile _
  | task hrun => exact (htended.runTask hsound.indexed hrun).1

/-- A process starts without tasks. -/
theorem Durable.tasks_of_crash {d : Death} (h : Durable opt name s L) (hname : name.length < 2 ^ 16)
    (hg : Roomy opt s (.crash d)) (hcrash : s.crash opt name d = some s') :
    s'.db.fileManager.tasks = [] := by
  obtain ⟨fm, hfiles, hopened⟩ := Option.bind_eq_some_iff.mp hcrash
  obtain ⟨u, Lu, rfl, hu, -⟩ := h.exists_filesAt hg hfiles
  have hsound := hu.inv.sound
  have hdisk := FileManager.disk_holds hsound.holds hsound.indexed hsound.registered
    (hu.name.symm ▸ hname)
  obtain ⟨db, rest, hopen, -, o, hfm⟩ := hdisk.openDb_eq opt name ReadBuffer.empty
  rw [hopen, Option.map_some, Option.some.injEq] at hopened
  subst hopened
  simp only [hfm, hdisk.openActive_eq]
  rfl

/-- The invariants at the end of a run with crashes. -/
theorem exists_tended (hname : name.length < 2 ^ 16)
    (hroomy : ∀ s₀, fresh opt name = some s₀ → Meets (fateStep opt name) (Roomy opt) s₀ fs)
    (hsurvives : Survives opt name fs s) :
    ∃ L, Durable opt name s L ∧ s.db.fileManager.Tended (2 ^ 32) L := by
  obtain ⟨s₀, hs₀, hrun⟩ := hsurvives
  refine hrun.invariant
    (P := fun s => ∃ L, Durable opt name s L ∧ s.db.fileManager.Tended (2 ^ 32) L)
    (hroomy s₀ hs₀) ⟨_, Durable.fresh hs₀, ?_⟩ ?_
  · have h₀ := (Durable.fresh hs₀).inv.sound.registered.bound
    refine FileManager.Tended.of_tasks_nil ?_ h₀.le
    rw [(fresh_db hs₀).1]
    rfl
  · rintro u (a | d) v ⟨L, h, htended⟩ hg hstep
    · obtain ⟨L', he, h'⟩ := h.step hg hstep
      exact ⟨L', h', h.inv.tended_step htended he⟩
    · obtain ⟨L', h', -⟩ := h.crash_step hname hg hstep
      exact ⟨L', h', .of_tasks_nil (h.tasks_of_crash hname hg hstep)
        h'.inv.sound.registered.bound.le⟩

/-- After any run with crashes, of the files that the running process has sealed those have a
task that have no index file. The tasks can all be run, in any order none is scheduled again, and
when all have been run each of these files has an index file that lists exactly its records. -/
theorem indexed_of_crashes (hname : name.length < 2 ^ 16)
    (hroomy : ∀ s₀, fresh opt name = some s₀ →
      Meets (fateStep opt name) (Roomy opt) s₀ (fs ++ as.map .act))
    (hsurvives : Survives opt name fs s) (hrun : Run (fateStep opt name) s (as.map .act) t) :
    (∀ id ∈ t.db.fileManager.metadata.files, s.db.fileManager.activeFileId ≤ id →
      id < t.db.fileManager.activeFileId →
        (Task.createIndexFile id ∈ t.db.fileManager.tasks ↔
          t.db.fileManager.indexFiles id = none)) ∧
    (∃ is fm, Run (fun fm i => fm.runTask i) t.db.fileManager is fm ∧ fm.tasks = []) ∧
    ∀ is fm, Run (fun fm i => fm.runTask i) t.db.fileManager is fm →
      is.length + fm.tasks.length = t.db.fileManager.tasks.length ∧
      (fm.tasks = [] → ∀ id ∈ t.db.fileManager.metadata.files,
        s.db.fileManager.activeFileId ≤ id → id < t.db.fileManager.activeFileId →
          ∃ bytes, fm.indexFiles id = some bytes ∧
            (IndexEntry.unPackAll bytes).filter (fun x => x.type ≠ .kEmpty) =
              logFrom 0 (t.db.fileManager.log id)) := by
  obtain ⟨L, h, htended⟩ := exists_tended hname (fun s₀ hs₀ => (hroomy s₀ hs₀).of_append) hsurvives
  obtain ⟨s₀, hs₀, hrun₀⟩ := hsurvives
  -- From here on no file is sealed without a task.
  obtain ⟨Lt, ht, htended⟩ : ∃ Lt, Durable opt name t Lt ∧
      t.db.fileManager.Tended s.db.fileManager.activeFileId Lt := by
    refine hrun.invariant (P := fun t => ∃ Lt, Durable opt name t Lt ∧
        t.db.fileManager.Tended s.db.fileManager.activeFileId Lt)
      (g := fun t f => Roomy opt t f ∧ ∃ a, f = .act a) ?_ ⟨L, h, htended.from_active⟩ ?_
    · intro pre f post u heq hpre
      refine ⟨(hroomy s₀ hs₀).of_run hrun₀ pre f post u heq hpre, ?_⟩
      obtain ⟨a, -, ha⟩ := List.mem_map.mp (heq ▸ List.mem_append_right pre List.mem_cons_self)
      exact ⟨a, ha.symm⟩
    · rintro u f v ⟨Lu, hu, hutended⟩ ⟨hg, a, rfl⟩ hstep
      obtain ⟨Lv, he, hv⟩ := hu.step hg hstep
      exact ⟨Lv, hv, hu.inv.tended_step hutended he⟩
  have hsound := ht.inv.sound
  refine ⟨fun id hid hle hlt => ⟨htended.absent id, htended.scheduled id hid hle hlt⟩,
    htended.exists_runTasks hsound.indexed, fun is fm hdrain => ?_⟩
  obtain ⟨⟨hfm, hindexed, hmetadata, hactive⟩, hlength⟩ := htended.runTasks hsound.indexed hdrain
  refine ⟨hlength, fun hnil id hid hle hlt => ?_⟩
  -- Without a task the index file is there.
  rcases hbytes : fm.indexFiles id with _ | bytes
  · have hmem := hfm.scheduled id (hmetadata ▸ hid) hle (hactive ▸ hlt) hbytes
    rw [hnil] at hmem
    cases hmem
  · have hfile := hsound.holds.files id
    rw [(hindexed.files id bytes hbytes).2 (hmetadata ▸ hid), hsound.holds.log_eq]
    refine ⟨_, rfl, ?_⟩
    obtain ⟨rest, hdecode, hkEmpty, -⟩ := decode_packLog hfile.storable hfile.fits
      (Platform.slack (packLog (Lt id)).length)
    rw [IndexEntry.unPackAll, hdecode, List.filter_append, List.filter_eq_self.mpr,
      List.filter_eq_nil_iff.mpr, List.append_nil]
    · intro x hx
      simp [hkEmpty x hx]
    · intro x hx
      obtain ⟨⟨o, e⟩, hmem, rfl⟩ := List.mem_map.mp hx
      rcases (hfile.storable e (At.mem (mem_frames_iff.mp hmem))).type with htype | htype <;>
        simp [IndexEntry.ofRecord, htype]

end

open scoped Reference

/-- Two puts, of which the second one seals the file of the first. -/
theorem exists_sealed : ∃ (s₀ t : Session) (as : List Action),
    fresh Reference.options [] = some s₀ ∧
      Meets (fateStep Reference.options []) (Roomy Reference.options) s₀ (as.map .act) ∧
      Run (fateStep Reference.options []) s₀ (as.map .act) t ∧
      s₀.db.fileManager.activeFileId = 1 ∧ t.db.fileManager.activeFileId = 2 ∧
      1 ∈ t.db.fileManager.metadata.files ∧
      t.db.fileManager.tasks = [.syncFile 1, .createIndexFile 1] ∧
      t.db.fileManager.indexFiles 1 = none ∧ (t.db.fileManager.log 1).length = 1 := by
  obtain ⟨value, hlen⟩ : ∃ value : Bytes, value.length = kMaxFileBytes - 16 :=
    ⟨List.replicate (kMaxFileBytes - 16) 1, List.length_replicate⟩
  obtain ⟨s₀, t, L, hs₀, hdb, hwrote, ht⟩ :=
    exists_wrote [] (placed_sealing hlen)
  have hfm := hwrote.files
  rw [hdb] at hfm
  refine ⟨s₀, t, _, hs₀, meets_fates _ hwrote.meets, run_fates _ hwrote.run, by rw [hdb]; rfl,
    by rw [hfm]; rfl, ?_, by rw [hfm]; rfl, by rw [hfm]; rfl, ?_⟩
  · rw [hfm]
    simp [sealing, FileManager.placed, FileManager.addRecord, FileManager.rolled, newDb, newFiles,
      DBImpl.create]
  · rw [ht.inv.sound.holds.log_eq, hwrote.log]
    rfl

theorem indexed_of_crashes_sealed : ∃ (t : Session) (is : List ℕ) (fm : FileManager),
    t.db.fileManager.tasks = [.syncFile 1, .createIndexFile 1] ∧
      Run (fun fm i => fm.runTask i) t.db.fileManager is fm ∧ is.length = 2 ∧ fm.tasks = [] ∧
      ∃ bytes, fm.indexFiles 1 = some bytes ∧
        (IndexEntry.unPackAll bytes).filter (fun x => x.type ≠ .kEmpty) =
          logFrom 0 (t.db.fileManager.log 1) := by
  obtain ⟨s₀, t, as, hs₀, hroomy, hrun, hid₀, hid, hmem, htasks, -⟩ := exists_sealed
  have hsurvives : Survives Reference.options [] [] s₀ := ⟨s₀, hs₀, run_nil.mpr rfl⟩
  obtain ⟨-, ⟨is, fm, hdrain, hnil⟩, hall⟩ := indexed_of_crashes (by decide)
    (fun s₁ hs₁ => Option.some_inj.mp (hs₀.symm.trans hs₁) ▸ hroomy) hsurvives hrun
  obtain ⟨hlength, hindex⟩ := hall is fm hdrain
  rw [hnil, htasks] at hlength
  exact ⟨t, is, fm, htasks, hdrain, hlength, hnil, hindex hnil 1 hmem hid₀.le (by omega)⟩

end Session
end PedroDB
