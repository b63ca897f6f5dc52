import PedroDB.Crash

/-!
# What no step takes away

Some of what a process has it keeps in whatever state it is: `readonly_` changes in no call,
a read changes the read cache and the open files only, and from `Init` on there is an active file.
No invariant is needed for this.

## Main definitions

* `DBImpl.Carries` — `readonly_` is as before, and the active file did not go away

## Main results

* `DBImpl.handleGet_openFiles` — what a read changes
* `Session.carries_of_step` — a step of a session
* `Session.active_of_crash` — the process that comes next
-/

namespace PedroDB

section

variable [Platform] {opt : Options} {name : Bytes}

namespace FileManager

variable {fm fm' : FileManager} {e : Entry} {status : Status} {loc : Location}

/-- A file that is created becomes the active one. -/
theorem active_of_createFile (id : ℕ) (fm : FileManager) :
    (createFile .sound id fm).2.activeDataFile = some id := rfl

theorem active_of_rollOver {c : Capture} (hactive : fm.activeDataFile.isSome) :
    (rollOver .sound c fm).2.activeDataFile.isSome := by
  unfold rollOver
  split_ifs
  · exact hactive
  · rw [active_of_createFile]
    rfl

theorem active_of_appendLoop {fuel : ℕ} (hactive : fm.activeDataFile.isSome)
    (happend : appendLoop .sound e fuel fm = some (status, loc, fm')) :
    fm'.activeDataFile.isSome := by
  induction fuel generalizing fm with
  | zero => cases happend
  | succ fuel ih =>
    rw [appendLoop] at happend
    split at happend
    · next loc' fm₁ hpack =>
      unfold allocatePack at hpack
      dsimp only at hpack
      split_ifs at hpack
      cases hpack
      cases happend
      exact hactive
    · have hrolled := active_of_rollOver (c := fm.capture) hactive
      split at happend
      · next fm₁ hroll =>
        rw [hroll] at hrolled
        exact ih hrolled happend
      · next fm₁ _ hroll =>
        rw [hroll] at hrolled
        cases happend
        exact hrolled

/-- `Init` makes a file the active one. -/
theorem active_of_init (fm fm' : FileManager) (hinit : fm.init .sound = (status, fm')) :
    fm'.activeDataFile.isSome := by
  unfold init at hinit
  split at hinit <;> cases hinit <;> rfl

omit [Platform] in
theorem active_of_acquireDataFile (fm : FileManager) (id : ℕ) :
    (fm.acquireDataFile id).2.activeDataFile = fm.activeDataFile := by
  obtain ⟨o, ho⟩ := acquireDataFile_openFiles fm id
  rw [ho]

end FileManager

namespace DBImpl

variable {db db' : DBImpl} {key : Key} {dir : Dir} {buffer rest : ReadBuffer} {reply : Reply}

/-- `readonly_` is as before, and the active file did not go away. -/
structure Carries (db db' : DBImpl) : Prop where
  readonly : db'.readonly = db.readonly
  active : db.fileManager.activeDataFile.isSome → db'.fileManager.activeDataFile.isSome

namespace Carries

omit [Platform] in
theorem refl (db : DBImpl) : db.Carries db := ⟨rfl, id⟩

omit [Platform] in
/-- Whatever else the operation did. -/
theorem of_fileManager (hreadonly : db'.readonly = db.readonly)
    (hactive : db'.fileManager.activeDataFile = db.fileManager.activeDataFile) : db.Carries db' :=
  ⟨hreadonly, fun h => hactive ▸ h⟩

theorem handlePut {w : Write} {status : Status}
    (hput : db.handlePut opt .sound w = some (status, db')) : db.Carries db' := by
  unfold DBImpl.handlePut at hput
  split at hput
  · cases hput
    exact refl _
  · split at hput
    · cases hput
    · next happend =>
      have hput := congrArg Prod.snd (Option.some_inj.mp hput)
      dsimp only at hput
      refine ⟨?_, fun hactive => ?_⟩
      · rw [← hput, updateIndex_readonly]
      · rw [← hput, updateIndex_fileManager]
        exact FileManager.active_of_appendLoop hactive happend
    · next happend =>
      cases hput
      exact ⟨rfl, fun hactive => FileManager.active_of_appendLoop hactive happend⟩

theorem handleGet {use_read_cache : Bool}
    (hget : db.handleGet opt use_read_cache key buffer = some (reply, db', rest)) :
    db.Carries db' := by
  obtain ⟨o, cache, rfl⟩ := handleGet_openFiles hget
  exact of_fileManager rfl rfl

theorem compactStep {c c' : Compaction}
    (hstep : compactStep .sound c buffer db = some (c', rest, db')) : db.Carries db' := by
  cases c with
  | idle => cases hstep
  | start id =>
    simp only [DBImpl.compactStep, compactStart, Option.some.injEq, Prod.mk.injEq] at hstep
    obtain ⟨-, -, rfl⟩ := hstep
    have hactive := FileManager.active_of_acquireDataFile db.fileManager id
    split_ifs
    · exact refl _
    · split
      · next heq =>
        rw [heq] at hactive
        exact of_fileManager rfl hactive
      · next heq =>
        rw [heq] at hactive
        exact of_fileManager rfl hactive
  | append id it next =>
    simp only [DBImpl.compactStep] at hstep
    split at hstep
    · cases hstep
    · next happend =>
      cases hstep
      exact ⟨rfl, fun hactive => FileManager.active_of_appendLoop hactive happend⟩
    · next happend =>
      cases hstep
      exact ⟨rfl, fun hactive => FileManager.active_of_appendLoop hactive happend⟩
  | install id it next loc =>
    simp only [DBImpl.compactStep, Option.some.injEq, Prod.mk.injEq] at hstep
    obtain ⟨-, -, rfl⟩ := hstep
    obtain ⟨states, indices, heq⟩ := compactInstall_eq next loc db
    rw [heq]
    exact of_fileManager rfl rfl
  | finish id =>
    simp only [DBImpl.compactStep, Option.some.injEq, Prod.mk.injEq] at hstep
    obtain ⟨-, -, rfl⟩ := hstep
    refine of_fileManager rfl ?_
    simp only [compactFinish, FileManager.removeFile, FileManager.releaseDataFile]
    split <;> rfl
  | _ =>
    simp only [DBImpl.compactStep, Option.some.injEq, Prod.mk.injEq] at hstep
    obtain ⟨-, -, rfl⟩ := hstep
    exact of_fileManager rfl rfl

end Carries

/-! ### The recovery -/

omit [Platform] in
theorem updateUnused_fileManager (opt : Options) (loc : Location) (n : ℕ) (db : DBImpl) :
    (updateUnused opt loc n db).fileManager = db.fileManager := by
  obtain ⟨tasks, states, heq⟩ := updateUnused_eq opt loc n db
  rw [heq]

omit [Platform] in
/-- The recovery of an entry does not touch the files. -/
theorem recoverEntry_fileManager {id : ℕ} {entry : IndexEntry}
    (hentry : recoverEntry opt id db entry = some db') : db'.fileManager = db.fileManager := by
  unfold recoverEntry at hentry
  dsimp only at hentry
  cases htype : entry.type with
  | kSet =>
    rw [htype] at hentry
    dsimp only at hentry
    split at hentry
    · cases hentry
      rfl
    · split_ifs at hentry <;> cases hentry <;> exact updateUnused_fileManager _ _ _ _
  | kDelete =>
    rw [htype] at hentry
    dsimp only at hentry
    split at hentry
    · cases hentry
      exact updateUnused_fileManager _ _ _ _
    · split_ifs at hentry <;> cases hentry
      · exact updateUnused_fileManager _ _ _ _
      · exact (updateUnused_fileManager _ _ _ _).trans (updateUnused_fileManager _ _ _ _)
  | _ =>
    rw [htype] at hentry
    cases hentry
    rfl

omit [Platform] in
theorem recoverEntries_fileManager {id : ℕ} {es : List IndexEntry}
    (hes : es.foldlM (recoverEntry opt id) db = some db') : db'.fileManager = db.fileManager := by
  induction es generalizing db with
  | nil =>
    cases hes
    rfl
  | cons e es ih =>
    rw [List.foldlM_cons] at hes
    obtain ⟨db₁, h₁, h₂⟩ := Option.bind_eq_some_iff.mp hes
    exact (ih h₂).trans (recoverEntry_fileManager h₁)

theorem recoverFile_active {id : ℕ} {status : Status}
    (hfile : recoverFile opt id (db, buffer) = some (status, db', rest)) :
    db'.fileManager.activeDataFile = db.fileManager.activeDataFile := by
  unfold recoverFile at hfile
  dsimp only at hfile
  split at hfile
  · obtain ⟨db₁, h₁, h₂⟩ := Option.map_eq_some_iff.mp hfile
    cases h₂
    rw [recoverEntries_fileManager h₁]
  · have hactive := FileManager.active_of_acquireDataFile db.fileManager id
    split at hfile
    · next heq =>
      rw [heq] at hactive
      obtain ⟨db₁, h₁, h₂⟩ := Option.map_eq_some_iff.mp hfile
      cases h₂
      have hfm := recoverEntries_fileManager h₁
      exact (congrArg FileManager.activeDataFile hfm).trans hactive
    · next heq =>
      rw [heq] at hactive
      cases hfile
      exact hactive

theorem recoverFiles_active {ids : List ℕ} {status : Status}
    (hfiles : recoverFiles opt ids (db, buffer) = some (status, db', rest)) :
    db'.fileManager.activeDataFile = db.fileManager.activeDataFile := by
  induction ids generalizing db buffer with
  | nil =>
    cases hfiles
    rfl
  | cons id ids ih =>
    rw [recoverFiles] at hfiles
    split at hfiles
    · cases hfiles
    · next s hfile =>
      have hactive := recoverFile_active hfile
      exact (ih hfiles).trans hactive
    · next hfile =>
      cases hfiles
      have hactive := recoverFile_active hfile
      exact hactive

/-- A process that has opened a database has an active file. -/
theorem active_of_openDb {disk : Disk} {status : Status}
    (hopen : openDb opt .sound name disk buffer = some (status, db, rest)) :
    db.fileManager.activeDataFile.isSome := by
  unfold openDb at hopen
  split at hopen
  · cases hopen
  · dsimp only at hopen
    split at hopen
    · next hinit =>
      have hactive := FileManager.active_of_init _ _ hinit
      rwa [recoverFiles_active hopen]
    · next hinit =>
      cases hopen
      exact FileManager.active_of_init _ _ hinit

end DBImpl

namespace Session

variable {s s' : Session} {a : Action}

/-- A step of a session. -/
theorem carries_of_step (hstep : step opt s a = some s') : s.db.Carries s'.db := by
  cases a with
  | write w =>
    simp only [step] at hstep
    split_ifs at hstep
    obtain ⟨⟨status, db⟩, hput, rfl⟩ := Option.map_eq_some_iff.mp hstep
    exact .handlePut hput
  | get use_read_cache key =>
    simp only [step] at hstep
    split_ifs at hstep
    obtain ⟨⟨reply, db, buffer⟩, hget, rfl⟩ := Option.map_eq_some_iff.mp hstep
    exact .handleGet hget
  | compact =>
    simp only [step] at hstep
    split_ifs at hstep
    obtain rfl := Option.some_inj.mp hstep
    exact .of_fileManager rfl rfl
  | block =>
    simp only [step] at hstep
    unfold compactBlock at hstep
    split at hstep
    · cases hstep
    · cases hstep
      exact .refl _
    · obtain ⟨⟨c, buffer, db⟩, hc, rfl⟩ := Option.map_eq_some_iff.mp hstep
      exact .compactStep hc
  | task i =>
    simp only [step] at hstep
    obtain ⟨fm, hrun, rfl⟩ := Option.map_eq_some_iff.mp hstep
    obtain ⟨tasks, indexFiles, rfl⟩ := FileManager.runTask_eq hrun
    exact .of_fileManager rfl rfl

/-- The process that comes next has an active file, too. -/
theorem active_of_crash {d : Death} (hcrash : s.crash opt name d = some s') :
    s'.db.fileManager.activeDataFile.isSome := by
  obtain ⟨fm, -, hopened⟩ := Option.bind_eq_some_iff.mp hcrash
  obtain ⟨⟨status, db, rest⟩, hopen, rfl⟩ := Option.map_eq_some_iff.mp hopened
  exact DBImpl.active_of_openDb hopen

end Session

end
end PedroDB
