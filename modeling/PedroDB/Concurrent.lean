import Mathlib.Data.List.Sort
import PedroDB.DBImpl
import PedroDB.Lib.Once
import PedroDB.Lib.Transition

/-!
# Many threads

Any number of threads write and compact at once. `Append`, every section under `mu_` and
every other block of a run of `Compact(id)` is one step. Opening a file may fail, and so
may `Append`; the database may become read-only at any time.

## Main definitions

* `Thread`, `Concurrent`, `Concurrent.step` — the system
* `Concurrent.place` — where the file ids of compaction tasks are
* `Concurrent.Effect` — what a step can do

## Main results

* `Concurrent.step_effect` — every step has one of these effects
* `Concurrent.threads_of_run` — a thread moves only by its own steps
-/

namespace PedroDB

open Transition

/-- What a thread is in the middle of. -/
inductive Thread
  | idle
  /-- `HandlePut`, in front of `Append`. -/
  | append (w : Write)
  /-- `HandlePut`, the record being at `loc`; in front of its section under `mu_`. -/
  | index (w : Write) (loc : Location)
  /-- A run of `Compact(id)`, and the polled files that the thread compacts next. -/
  | compact (queue : List ℕ) (c : Compaction)
  deriving DecidableEq

/-- The file that a run of `Compact(id)` was called for. -/
def Compaction.files : Compaction → List ℕ
  | .idle => []
  | .start id | .mark id | .scan id _ | .check id _ _ _ | .append id _ _ | .install id _ _ _
  | .finish id => [id]

/-- The files whose tasks a thread has. -/
def Thread.files : Thread → List ℕ
  | .compact queue c => c.files ++ queue
  | _ => []

/-- A database and the threads of its process. -/
structure Concurrent where
  db : DBImpl
  threads : ℕ → Thread
  /-- The buffer that the iterators of each thread share. -/
  buffers : ℕ → ReadBuffer
  /-- The files that the periodic worker has polled and the executor has not started. -/
  scheduled : List ℕ

namespace Concurrent

inductive Action
  /-- A client calls `Put` or `Delete`. -/
  | write (t : ℕ) (w : Write)
  /-- `Append`; files that it creates open like this. -/
  | append (t : ℕ) (opens : OpenData)
  /-- The section of `HandlePut` under `mu_`. -/
  | index (t : ℕ)
  /-- The periodic worker polls. -/
  | poll
  /-- The executor starts the `i`-th file that is scheduled. -/
  | start (t i : ℕ)
  /-- `Compact()` is called and polls. -/
  | compact (t : ℕ)
  /-- The next block of a run of `Compact(id)`. -/
  | block (t : ℕ) (opens : OpenData)
  /-- The run cannot open its file. -/
  | fail (t : ℕ)
  /-- There were too many I/O errors. -/
  | readonly
  /-- The executor runs the `i`-th task of the file manager. -/
  | task (i : ℕ)

/-- The thread that takes the step. -/
def Action.thread : Action → Option ℕ
  | .write t _ | .append t _ | .index t | .start t _ | .compact t | .block t _ | .fail t => some t
  | .poll | .readonly | .task _ => none

variable [Platform] (opt : Options)

/-- The threads, of a database that was just opened. -/
def start (db : DBImpl) : Concurrent :=
  { db, threads := fun _ => .idle, buffers := fun _ => ReadBuffer.empty, scheduled := [] }

/-- Thread `t` goes on there. -/
def setThread (s : Concurrent) (t : ℕ) (th : Thread) : Concurrent :=
  { s with threads := Function.update s.threads t th }

/-- The next block of the run of `Compact(id)` of thread `t`, or its next file. -/
def compactBlock (s : Concurrent) (t : ℕ) (opens : OpenData) (queue : List ℕ) (c : Compaction) :
    Option Concurrent :=
  match c, queue with
  | .idle, [] => some (s.setThread t .idle)
  | .idle, id :: queue => some (s.setThread t (.compact queue (.start id)))
  | c, queue =>
    (DBImpl.compactStep opens c (s.buffers t) s.db).map fun (c, buffer, db) =>
      { s with
        db
        threads := Function.update s.threads t (.compact queue c)
        buffers := Function.update s.buffers t buffer }

def step (s : Concurrent) : Action → Option Concurrent
  | .write t w =>
    -- A refused write replies at once.
    match s.threads t, DBImpl.prepare opt w s.db with
    | .idle, .ok _ => some (s.setThread t (.append w))
    | .idle, .error _ => some s
    | _, _ => none
  | .append t opens =>
    match s.threads t with
    | .append w =>
      -- The file manager appends under its own mutex, apart from the index update.
      match s.db.fileManager.append opens (DBImpl.entryOf opt w) with
      | none => none
      | some (.kOk, loc, fileManager) =>
        some ({ s with db := { s.db with fileManager } }.setThread t (.index w loc))
      | some (_, _, fileManager) =>
        some ({ s with db := { s.db with fileManager } }.setThread t .idle)
    | _ => none
  | .index t =>
    match s.threads t with
    | .index w loc =>
      some ({ s with db := (DBImpl.updateIndex opt w loc s.db).2 }.setThread t .idle)
    | _ => none
  | .poll =>
    some { s with db := s.db.pollCompactTask.2, scheduled := s.scheduled ++ s.db.pollCompactTask.1 }
  | .start t i =>
    -- A worker takes any of the tasks that were scheduled.
    match s.threads t, s.scheduled[i]? with
    | .idle, some id =>
      some ({ s with scheduled := s.scheduled.eraseIdx i }.setThread t (.compact [] (.start id)))
    | _, _ => none
  | .compact t =>
    -- The manual compaction takes what it polled, in the order of the ids.
    match s.threads t with
    | .idle =>
      some ({ s with db := s.db.pollCompactTask.2 }.setThread t
        (.compact (s.db.pollCompactTask.1.mergeSort (· ≤ ·)) .idle))
    | _ => none
  | .block t opens =>
    match s.threads t with
    | .compact queue c => compactBlock s t opens queue c
    | _ => none
  | .fail t =>
    -- The file to compact does not open.
    match s.threads t with
    | .compact queue (.start _) => some (s.setThread t (.compact queue .idle))
    | _ => none
  | .readonly => some { s with db := { s.db with readonly := true } }
  | .task i =>
    (s.db.fileManager.runTask i).map fun fileManager => { s with db := { s.db with fileManager } }

/-! ### Where the tasks are -/

inductive Place
  /-- `compact_tasks_` -/
  | queued
  /-- Polled by the periodic worker, not yet started. -/
  | scheduled
  /-- Polled by `Compact()` or started by the executor: being compacted by a thread, or next. -/
  | thread (t : ℕ)
  deriving DecidableEq

omit [Platform] in
/-- The files at each place. -/
def place (s : Concurrent) : Place → List ℕ
  | .queued => s.db.compactTasks
  | .scheduled => s.scheduled
  | .thread t => (s.threads t).files

/-! ### What a step does -/

/-- What a step can do. -/
inductive Effect (s : Concurrent) : Action → Concurrent → Prop
  | refused {t : ℕ} {w : Write} : Effect s (.write t w) s
  | write {t : ℕ} {w : Write} {e : Entry} (hidle : s.threads t = .idle)
      (hprepare : DBImpl.prepare opt w s.db = .ok e) :
      Effect s (.write t w) (s.setThread t (.append w))
  | append {t : ℕ} {opens : OpenData} {w : Write} {loc : Location} {fm : FileManager}
      (ht : s.threads t = .append w)
      (happend : s.db.fileManager.append opens (DBImpl.entryOf opt w) = some (.kOk, loc, fm)) :
      Effect s (.append t opens)
        ({ s with db := { s.db with fileManager := fm } }.setThread t (.index w loc))
  | appendFail {t : ℕ} {opens : OpenData} {w : Write} {status : Status} {loc : Location}
      {fm : FileManager} (ht : s.threads t = .append w) (hne : status ≠ .kOk)
      (happend : s.db.fileManager.append opens (DBImpl.entryOf opt w) = some (status, loc, fm)) :
      Effect s (.append t opens)
        ({ s with db := { s.db with fileManager := fm } }.setThread t .idle)
  | index {t : ℕ} {w : Write} {loc : Location} (ht : s.threads t = .index w loc) :
      Effect s (.index t)
        ({ s with db := (DBImpl.updateIndex opt w loc s.db).2 }.setThread t .idle)
  | poll : Effect s .poll
      { s with
        db := s.db.pollCompactTask.2
        scheduled := s.scheduled ++ s.db.compactTasks }
  | start {t i id : ℕ} (ht : s.threads t = .idle) (hi : s.scheduled[i]? = some id) :
      Effect s (.start t i)
        ({ s with scheduled := s.scheduled.eraseIdx i }.setThread t (.compact [] (.start id)))
  | compact {t : ℕ} (ht : s.threads t = .idle) :
      Effect s (.compact t)
        ({ s with db := s.db.pollCompactTask.2 }.setThread t
          (.compact (s.db.compactTasks.mergeSort (· ≤ ·)) .idle))
  | done {t : ℕ} {opens : OpenData} (ht : s.threads t = .compact [] .idle) :
      Effect s (.block t opens) (s.setThread t .idle)
  | next {t id : ℕ} {opens : OpenData} {queue : List ℕ}
      (ht : s.threads t = .compact (id :: queue) .idle) :
      Effect s (.block t opens) (s.setThread t (.compact queue (.start id)))
  | opened {t id : ℕ} {opens : OpenData} {queue : List ℕ} {fm : FileManager}
      (ht : s.threads t = .compact queue (.start id)) (hwritable : s.db.readonly = false)
      (hopen : s.db.fileManager.acquireDataFile id = (.kOk, fm)) :
      Effect s (.block t opens)
        ({ s with db := { s.db with fileManager := fm } }.setThread t (.compact queue (.mark id)))
  | refusedRun {t id : ℕ} {opens : OpenData} {queue : List ℕ}
      (ht : s.threads t = .compact queue (.start id)) (hreadonly : s.db.readonly = true) :
      Effect s (.block t opens) (s.setThread t (.compact queue .idle))
  | openFail {t id : ℕ} {opens : OpenData} {queue : List ℕ} {status : Status} {fm : FileManager}
      (ht : s.threads t = .compact queue (.start id)) (hne : status ≠ .kOk)
      (hopen : s.db.fileManager.acquireDataFile id = (status, fm)) :
      Effect s (.block t opens)
        ({ s with db := { s.db with fileManager := fm } }.setThread t (.compact queue .idle))
  | mark {t id : ℕ} {opens : OpenData} {queue : List ℕ}
      (ht : s.threads t = .compact queue (.mark id)) :
      Effect s (.block t opens)
        ({ s with db := s.db.compactMark id }.setThread t
          (.compact queue (.scan id (RecordIterator.create kMaxFileBytes))))
  | scan {t id : ℕ} {opens : OpenData} {queue : List ℕ} {it : RecordIterator}
      (ht : s.threads t = .compact queue (.scan id it)) :
      Effect s (.block t opens)
        ({ s with
            buffers := Function.update s.buffers t
              (s.db.compactScan id it (s.buffers t)).2 }.setThread t
          (.compact queue (s.db.compactScan id it (s.buffers t)).1))
  | check {t id offset : ℕ} {opens : OpenData} {queue : List ℕ} {it : RecordIterator}
      {next : Entry} (ht : s.threads t = .compact queue (.check id it offset next)) :
      Effect s (.block t opens)
        (s.setThread t (.compact queue (s.db.compactCheck id it offset next)))
  | copy {t id : ℕ} {opens : OpenData} {queue : List ℕ} {it : RecordIterator} {next : Entry}
      {loc : Location} {fm : FileManager} (ht : s.threads t = .compact queue (.append id it next))
      (happend : s.db.fileManager.append opens next = some (.kOk, loc, fm)) :
      Effect s (.block t opens)
        ({ s with db := { s.db with fileManager := fm } }.setThread t
          (.compact queue (.install id it next loc)))
  | copyFail {t id : ℕ} {opens : OpenData} {queue : List ℕ} {it : RecordIterator} {next : Entry}
      {status : Status} {loc : Location} {fm : FileManager}
      (ht : s.threads t = .compact queue (.append id it next)) (hne : status ≠ .kOk)
      (happend : s.db.fileManager.append opens next = some (status, loc, fm)) :
      Effect s (.block t opens)
        ({ s with db := { s.db with fileManager := fm } }.setThread t (.compact queue .idle))
  | install {t id : ℕ} {opens : OpenData} {queue : List ℕ} {it : RecordIterator} {next : Entry}
      {loc : Location} (ht : s.threads t = .compact queue (.install id it next loc)) :
      Effect s (.block t opens)
        ({ s with db := s.db.compactInstall next loc }.setThread t (.compact queue (.scan id it)))
  | finish {t id : ℕ} {opens : OpenData} {queue : List ℕ}
      (ht : s.threads t = .compact queue (.finish id)) :
      Effect s (.block t opens)
        ({ s with db := s.db.compactFinish id }.setThread t (.compact queue .idle))
  | fail {t id : ℕ} {queue : List ℕ} (ht : s.threads t = .compact queue (.start id)) :
      Effect s (.fail t) (s.setThread t (.compact queue .idle))
  | readonly : Effect s .readonly { s with db := { s.db with readonly := true } }
  | task {i : ℕ} {fm : FileManager} (hrun : s.db.fileManager.runTask i = some fm) :
      Effect s (.task i) { s with db := { s.db with fileManager := fm } }

variable {opt} {s s' : Concurrent} {a : Action}

omit [Platform] in
theorem setThread_buffers (t : ℕ) (th : Thread) (db : DBImpl) :
    ({ s with
        db
        threads := Function.update s.threads t th
        buffers := Function.update s.buffers t (s.buffers t) } : Concurrent) =
      { s with db }.setThread t th := by
  rw [Function.update_eq_self]
  rfl

theorem compactBlock_effect {t : ℕ} {opens : OpenData} {queue : List ℕ} {c : Compaction}
    (ht : s.threads t = .compact queue c) (hstep : s.compactBlock t opens queue c = some s') :
    Effect opt s (.block t opens) s' := by
  unfold compactBlock at hstep
  cases c with
  | idle =>
    cases queue with
    | nil =>
      simp only [Option.some.injEq] at hstep
      exact hstep ▸ .done ht
    | cons id queue =>
      simp only [Option.some.injEq] at hstep
      exact hstep ▸ .next ht
  | start id =>
    simp only [DBImpl.compactStep, Option.map_some, Option.some.injEq, setThread_buffers] at hstep
    subst hstep
    unfold DBImpl.compactStart
    -- `Compact` refuses on a read-only database, before it opens anything.
    split_ifs with hreadonly
    · exact .refusedRun ht hreadonly
    · rcases hopen : s.db.fileManager.acquireDataFile id with ⟨status, fm⟩
      cases status with
      | kOk => exact .opened ht (by simpa using hreadonly) hopen
      | _ => exact .openFail ht (by simp) hopen
  | mark id =>
    simp only [DBImpl.compactStep, Option.map_some, Option.some.injEq, setThread_buffers] at hstep
    exact hstep ▸ .mark ht
  | scan id it =>
    simp only [DBImpl.compactStep, Option.map_some, Option.some.injEq] at hstep
    exact hstep ▸ .scan ht
  | check id it offset next =>
    simp only [DBImpl.compactStep, Option.map_some, Option.some.injEq, setThread_buffers] at hstep
    exact hstep ▸ .check ht
  | append id it next =>
    simp only [DBImpl.compactStep] at hstep
    rcases happend : s.db.fileManager.append opens next with _ | ⟨status, loc, fm⟩
    · -- No fuel is left, which is not a step.
      simp [happend] at hstep
    · cases status with
      | kOk =>
        simp only [happend, Option.map_some, Option.some.injEq, setThread_buffers] at hstep
        exact hstep ▸ .copy ht happend
      | _ =>
        simp only [happend, Option.map_some, Option.some.injEq, setThread_buffers] at hstep
        exact hstep ▸ .copyFail ht (by simp) happend
  | install id it next loc =>
    simp only [DBImpl.compactStep, Option.map_some, Option.some.injEq, setThread_buffers] at hstep
    exact hstep ▸ .install ht
  | finish id =>
    simp only [DBImpl.compactStep, Option.map_some, Option.some.injEq, setThread_buffers] at hstep
    exact hstep ▸ .finish ht

/-- Every step has one of these effects. -/
theorem step_effect (hstep : step opt s a = some s') : Effect opt s a s' := by
  cases a with
  | write t w =>
    simp only [step] at hstep
    split at hstep
    · next e hidle hprepare =>
      rw [Option.some.injEq] at hstep
      exact hstep ▸ .write hidle hprepare
    · rw [Option.some.injEq] at hstep
      exact hstep ▸ .refused
    · cases hstep
  | append t opens =>
    simp only [step] at hstep
    split at hstep
    · next w ht =>
      rcases happend : s.db.fileManager.append opens (DBImpl.entryOf opt w) with
        _ | ⟨status, loc, fm⟩
      · -- No fuel is left, which is not a step.
        simp [happend] at hstep
      · cases status with
        | kOk =>
          simp only [happend, Option.some.injEq] at hstep
          exact hstep ▸ .append ht happend
        | _ =>
          simp only [happend, Option.some.injEq] at hstep
          exact hstep ▸ .appendFail ht (by simp) happend
    · cases hstep
  | index t =>
    simp only [step] at hstep
    split at hstep
    · next w loc ht =>
      rw [Option.some.injEq] at hstep
      exact hstep ▸ .index ht
    · cases hstep
  | poll =>
    simp only [step, Option.some.injEq] at hstep
    exact hstep ▸ .poll
  | start t i =>
    simp only [step] at hstep
    split at hstep
    · next id ht hi =>
      rw [Option.some.injEq] at hstep
      exact hstep ▸ .start ht hi
    · cases hstep
  | compact t =>
    simp only [step] at hstep
    split at hstep
    · next ht =>
      rw [Option.some.injEq] at hstep
      exact hstep ▸ .compact ht
    · cases hstep
  | block t opens =>
    simp only [step] at hstep
    split at hstep
    · next queue c ht => exact compactBlock_effect ht hstep
    · cases hstep
  | fail t =>
    simp only [step] at hstep
    split at hstep
    · next queue id ht =>
      rw [Option.some.injEq] at hstep
      exact hstep ▸ .fail ht
    · cases hstep
  | readonly =>
    simp only [step, Option.some.injEq] at hstep
    exact hstep ▸ .readonly
  | task i =>
    obtain ⟨fm, hrun, rfl⟩ := Option.map_eq_some_iff.mp hstep
    exact .task hrun

/-- A step moves one thread at most. -/
theorem Effect.threads {t : ℕ} (he : Effect opt s a s') (ht : a.thread ≠ some t) :
    s'.threads t = s.threads t := by
  cases he with
  | refused | poll | readonly | task => rfl
  | _ => exact Function.update_of_ne (fun h => ht (congrArg some h.symm)) _ _

/-- A thread that takes no step stays where it is. -/
theorem threads_of_run {as : List Action} {t : ℕ} (hrun : Run (step opt) s as s')
    (hother : ∀ a ∈ as, a.thread ≠ some t) : s'.threads t = s.threads t := by
  induction as generalizing s with
  | nil => rw [run_nil.mp hrun]
  | cons a as ih =>
    obtain ⟨u, hstep, hrun⟩ := run_cons.mp hrun
    obtain ⟨ha, hother⟩ := List.forall_mem_cons.mp hother
    exact (ih hrun hother).trans ((step_effect hstep).threads ha)

end Concurrent
end PedroDB
