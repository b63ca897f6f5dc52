import PedroDB.Crash

/-!
# The sync worker

`Init` schedules a worker that syncs the active file at every interval and counts the syncs
that fail. Above a limit the database becomes read-only and stays so: writes are refused,
and a run of `Compact` that has not begun does not begin.

## Main definitions

* `FileManager.sync` — `Sync`, by how the file answers
* `Supervised`, `Supervised.syncWorker`, `Supervised.step` — a session and the worker of its
  process
* `Supervised.Refuses`, `Supervised.accepted` — when writes are refused, and which are not,
  told from the moves

## Main results

* `Session.step_withReadonly` — what does not depend on `readonly_`
* `Session.step_readonly` — what does
-/

namespace PedroDB

open Session

/-- How `Flush(true)` and `Sync` of the active file end. -/
structure SyncIo where
  flushes : Bool
  syncs : Bool
  deriving DecidableEq, Repr

/-- `Sync` -/
def FileManager.sync (io : SyncIo) (fm : FileManager) : Status :=
  match fm.activeDataFile with
  | none => .kOk
  | some _ =>
    if io.flushes = false then .kIOError
    else if io.syncs = false then .kIOError
    else .kOk

/-- `readonly_` becomes `b`. -/
def DBImpl.withReadonly (b : Bool) (db : DBImpl) : DBImpl := { db with readonly := b }

def Session.withReadonly (b : Bool) (s : Session) : Session := { s with db := s.db.withReadonly b }

namespace DBImpl

variable {db : DBImpl} {b : Bool} {key : Key} {dir : Dir}

@[simp] theorem withReadonly_readonly : (db.withReadonly b).readonly = b := rfl

@[simp] theorem withReadonly_fileManager : (db.withReadonly b).fileManager = db.fileManager := rfl

@[simp] theorem withReadonly_find : (db.withReadonly b).find = db.find := rfl

@[simp] theorem withReadonly_withReadonly {b' : Bool} :
    (db.withReadonly b).withReadonly b' = db.withReadonly b' := rfl

theorem withReadonly_eq (h : db.readonly = b) : db.withReadonly b = db := by
  subst h
  rfl

variable [Platform] {opt : Options} {buffer : ReadBuffer}

theorem readDirectly_withReadonly : readDirectly opt dir (db.withReadonly b) buffer =
    ((readDirectly opt dir db buffer).1, (readDirectly opt dir db buffer).2.1.withReadonly b,
      (readDirectly opt dir db buffer).2.2) := by
  simp only [readDirectly, withReadonly_fileManager]
  rcases db.fileManager.acquireDataFile dir.loc.id with ⟨status, fm⟩
  cases status with
  | kOk =>
    dsimp only
    split <;> rfl
  | _ => rfl

theorem readCached_withReadonly : readCached opt dir (db.withReadonly b) =
    (readCached opt dir db).map fun r => (r.1, r.2.withReadonly b) := by
  simp only [readCached, withReadonly_fileManager, Option.map_map]
  congr 1
  funext r
  obtain ⟨status, entry, readCache, fm⟩ := r
  cases status <;> cases entry <;> rfl

/-- A read does not look at `readonly_`. -/
theorem handleGet_withReadonly {use_read_cache : Bool} :
    handleGet opt use_read_cache key (db.withReadonly b) buffer =
      (handleGet opt use_read_cache key db buffer).map fun r => (r.1, r.2.1.withReadonly b, r.2.2) := by
  simp only [handleGet, withReadonly_find]
  rcases db.find key with _ | dir
  · rfl
  · have hdirectly : directlyRead opt use_read_cache dir (db.withReadonly b) =
        directlyRead opt use_read_cache dir db := rfl
    dsimp only
    rw [hdirectly]
    split_ifs
    · rw [readDirectly_withReadonly]
      rfl
    · rw [readCached_withReadonly, Option.map_map, Option.map_map]
      rfl

theorem answer_withReadonly : (db.withReadonly b).answer opt key = db.answer opt key := by
  rw [answer, answer, handleGet_withReadonly, Option.map_map]
  rfl

/-- Neither does a running compaction. -/
theorem compactStep_withReadonly {c : Compaction} (hc : ∀ id, c ≠ .start id) :
    compactStep .sound c buffer (db.withReadonly b) =
      (compactStep .sound c buffer db).map fun r => (r.1, r.2.1, r.2.2.withReadonly b) := by
  cases c with
  | start id => exact absurd rfl (hc id)
  | append id it next =>
    simp only [compactStep, withReadonly_fileManager]
    rcases db.fileManager.append .sound next with _ | ⟨status, loc, fm⟩
    · rfl
    · cases status <;> rfl
  | install id it next loc =>
    simp only [compactStep, compactInstall, withReadonly_find, Option.map_some]
    rcases db.find next.key with _ | dir
    · rfl
    · dsimp only
      split_ifs <;> rfl
  | _ => rfl

end DBImpl

namespace Session

variable {s s' : Session} {a : Action} {b : Bool}

theorem withReadonly_eq (h : s.db.readonly = b) : s.withReadonly b = s := by
  subst h
  rfl

variable [Platform] {opt : Options} {name : Bytes}

theorem compactBlock_withReadonly (hstart : ∀ id, s.compaction ≠ .start id) :
    (s.withReadonly b).compactBlock = s.compactBlock.map fun s => s.withReadonly b := by
  obtain ⟨db, buffer, queue, c⟩ := s
  have hblock : DBImpl.compactStep .sound c buffer (db.withReadonly b) =
      (DBImpl.compactStep .sound c buffer db).map fun r => (r.1, r.2.1, r.2.2.withReadonly b) :=
    DBImpl.compactStep_withReadonly hstart
  cases c with
  | idle => cases queue <;> rfl
  | _ =>
    simp only [compactBlock, withReadonly, hblock, Option.map_map]
    rfl

/-- What a step does does not depend on `readonly_`, unless it is a write or a compaction
begins. -/
theorem step_withReadonly (hwrite : ∀ w, a ≠ .write w)
    (hstart : a = .block → ∀ id, s.compaction ≠ .start id) :
    step opt (s.withReadonly b) a = (step opt s a).map fun s => s.withReadonly b := by
  have hquiescent : (s.withReadonly b).Quiescent ↔ s.Quiescent := Iff.rfl
  cases a with
  | write w => exact absurd rfl (hwrite w)
  | get use_read_cache key =>
    simp only [step, hquiescent]
    split_ifs
    · simp only [withReadonly, DBImpl.handleGet_withReadonly, Option.map_map]
      rfl
    · rfl
  | compact =>
    simp only [step, hquiescent]
    split_ifs <;> rfl
  | block => exact compactBlock_withReadonly (hstart rfl)
  | task i =>
    simp only [step, withReadonly, DBImpl.withReadonly_fileManager, Option.map_map]
    rfl

/-- A read-only database refuses a write, and a compaction does not begin. -/
theorem step_readonly (hreadonly : s.db.readonly = true) (hstep : step opt s a = some s') :
    (∃ w, a = .write w ∧ s' = s) ∨
      (∃ id, a = .block ∧ s.compaction = .start id ∧ s' = { s with compaction := .idle }) ∨
      (∀ w, a ≠ .write w) ∧ step opt (s.withReadonly false) a = some (s'.withReadonly false) ∧
        s'.db.readonly = true := by
  by_cases hwrite : ∃ w, a = .write w
  · obtain ⟨w, rfl⟩ := hwrite
    refine Or.inl ⟨w, rfl, ?_⟩
    have hput : s.db.handlePut opt .sound w = some (.kNotSupported, s.db) := by
      simp only [DBImpl.handlePut, DBImpl.prepare, hreadonly, if_true]
    simp only [step, hput, Option.map_some] at hstep
    split_ifs at hstep
    exact (Option.some_inj.mp hstep).symm
  · have hwrite : ∀ w, a ≠ .write w := fun w ha => hwrite ⟨w, ha⟩
    by_cases hstart : ∃ id, a = .block ∧ s.compaction = .start id
    · obtain ⟨id, rfl, hc⟩ := hstart
      refine Or.inr (Or.inl ⟨id, rfl, hc, ?_⟩)
      simp only [step, compactBlock, hc, DBImpl.compactStep, DBImpl.compactStart, hreadonly, if_true,
        Option.map_some, Option.some.injEq] at hstep
      exact hstep.symm
    · have hstart : a = .block → ∀ id, s.compaction ≠ .start id := fun ha id hc =>
        hstart ⟨id, ha, hc⟩
      have hsame : step opt (s.withReadonly true) a =
          (step opt s a).map fun s => s.withReadonly true := step_withReadonly hwrite hstart
      rw [withReadonly_eq hreadonly, hstep, Option.map_some, Option.some.injEq] at hsame
      refine Or.inr (Or.inr ⟨hwrite, ?_, by rw [hsame]; rfl⟩)
      rw [step_withReadonly hwrite hstart, hstep, Option.map_some]

/-- A process that dies leaves the same files, unless it dies in a write. -/
theorem crash_withReadonly {d : Death} (hreadonly : s.db.readonly = true)
    (hcrash : s.crash opt name d = some s') :
    (∀ w, d ≠ .appended w) ∧ (s.withReadonly false).crash opt name d = some s' := by
  cases d with
  | between => exact ⟨by simp, hcrash⟩
  | rolledOver => exact ⟨by simp, hcrash⟩
  | appended w =>
    -- The record is refused before it is appended.
    simp only [crash, filesAt, DBImpl.prepare, hreadonly, if_true, ite_self, Option.bind_none] at hcrash
    cases hcrash

end Session

/-- A session, and what the sync worker of its process has counted. -/
structure Supervised where
  session : Session
  /-- `failed_count` -/
  failedCount : ℕ

namespace Supervised

inductive Move
  | fate (f : Fate)
  /-- The sync worker runs. -/
  | tick (io : SyncIo)

/-- One run of `sync_worker_`. -/
def syncWorker (sync_max_io_error : ℤ) (io : SyncIo) (s : Supervised) : Supervised :=
  let failedCount : ℕ :=
    match s.session.db.fileManager.sync io with
    -- A sync that succeeds does not take the count back.
    | .kOk => s.failedCount
    | _ => s.failedCount + 1
  if sync_max_io_error < failedCount then
    { session := s.session.withReadonly true, failedCount }
  else { s with failedCount }

section

variable [Platform] (opt : Options) (sync_max_io_error : ℤ) (name : Bytes)

def step (s : Supervised) : Move → Option Supervised
  | .fate (.act a) => (Session.step opt s.session a).map fun session => { s with session }
  -- The worker of the next process counts from the beginning.
  | .fate (.crash d) =>
    (s.session.crash opt name d).map fun session => { session, failedCount := 0 }
  | .tick io => some (syncWorker sync_max_io_error io s)

/-- The moves lead from a new database to state `s`. -/
def Reaches (ms : List Move) (s : Supervised) : Prop :=
  ∃ s₀, fresh opt name = some s₀ ∧
    Transition.Run (step opt sync_max_io_error name) { session := s₀, failedCount := 0 } ms s

end

/-! ### What the moves tell -/

/-- The sync fails. -/
def Move.Fails : Move → Prop
  | .tick io => io.flushes = false ∨ io.syncs = false
  | .fate _ => False

instance : (m : Move) → Decidable m.Fails
  | .tick _ => inferInstanceAs (Decidable (_ ∨ _))
  | .fate _ => .isFalse not_false

def Move.IsTick : Move → Prop
  | .tick _ => True
  | .fate _ => False

instance : (m : Move) → Decidable m.IsTick
  | .tick _ => .isTrue trivial
  | .fate _ => .isFalse not_false

/-- The moves of the process that runs now. -/
def life (ms : List Move) : List Move :=
  ms.foldl (fun ms m =>
    match m with
    | .fate (.crash _) => []
    | m => ms ++ [m]) []

/-- How many syncs have failed. -/
def failures (ms : List Move) : ℕ := ms.countP fun m => m.Fails

/-- The worker has run, and more syncs than the limit have failed in this process. -/
def Refuses (sync_max_io_error : ℤ) (ms : List Move) : Prop :=
  (∃ m ∈ life ms, m.IsTick) ∧ sync_max_io_error < failures (life ms)

instance (sync_max_io_error : ℤ) (ms : List Move) : Decidable (Refuses sync_max_io_error ms) :=
  inferInstanceAs (Decidable (_ ∧ _))

def Move.fates : Move → List Fate
  | .fate f => [f]
  | .tick _ => []

/-- The fates among the moves behind `past` that met a database that was not read-only. -/
def writableFrom (sync_max_io_error : ℤ) (past : List Move) : List Move → List Fate
  | [] => []
  | m :: ms =>
    (if Refuses sync_max_io_error past then [] else m.fates) ++
      writableFrom sync_max_io_error (past ++ [m]) ms

/-- The writes that were accepted. -/
def accepted [Platform] (opt : Options) (sync_max_io_error : ℤ) (ms : List Move) : List Action :=
  Session.accepted opt (writableFrom sync_max_io_error [] ms)

theorem writableFrom_concat {sync_max_io_error : ℤ} {past ms : List Move} {m : Move} :
    writableFrom sync_max_io_error past (ms ++ [m]) =
      writableFrom sync_max_io_error past ms ++
        if Refuses sync_max_io_error (past ++ ms) then [] else m.fates := by
  induction ms generalizing past with
  | nil => simp [writableFrom]
  | cons x ms ih => simp [writableFrom, ih, List.append_assoc]

variable {ms : List Move} {m : Move}

@[simp] theorem life_nil : life [] = [] := rfl

@[simp] theorem life_act {a : Action} : life (ms ++ [.fate (.act a)]) = life ms ++ [.fate (.act a)] := by
  simp [life]

@[simp] theorem life_crash {d : Death} : life (ms ++ [.fate (.crash d)]) = [] := by
  simp [life]

@[simp] theorem life_tick {io : SyncIo} : life (ms ++ [.tick io]) = life ms ++ [.tick io] := by
  simp [life]

theorem failures_concat : failures (ms ++ [m]) = failures ms + if m.Fails then 1 else 0 := by
  simp [failures, List.countP_append, List.countP_cons]

/-- A call neither makes the database read-only nor writable. -/
theorem refuses_act {sync_max_io_error : ℤ} {a : Action} :
    Refuses sync_max_io_error (ms ++ [.fate (.act a)]) ↔ Refuses sync_max_io_error ms := by
  simp [Refuses, failures_concat, Move.Fails, Move.IsTick]

theorem not_refuses_crash {sync_max_io_error : ℤ} {d : Death} :
    ¬ Refuses sync_max_io_error (ms ++ [.fate (.crash d)]) := by
  simp [Refuses]

theorem refuses_tick {sync_max_io_error : ℤ} {io : SyncIo} :
    Refuses sync_max_io_error (ms ++ [.tick io]) ↔
      sync_max_io_error < failures (life (ms ++ [.tick io])) := by
  simp [Refuses, Move.IsTick]

/-- The worker does not make a database writable. -/
theorem syncWorker_session {sync_max_io_error : ℤ} {io : SyncIo} {s : Supervised}
    (hreadonly : s.session.db.readonly = true) :
    (syncWorker sync_max_io_error io s).session = s.session := by
  simp only [syncWorker]
  split_ifs
  · exact withReadonly_eq hreadonly
  · rfl

/-- The worker of a process with an active file counts the syncs that fail. -/
theorem syncWorker_eq {sync_max_io_error : ℤ} {io : SyncIo} {s : Supervised} {file : ℕ}
    (hactive : s.session.db.fileManager.activeDataFile = some file)
    (hcount : s.failedCount = failures (life ms)) :
    syncWorker sync_max_io_error io s =
      { session :=
          if sync_max_io_error < failures (life (ms ++ [.tick io])) then s.session.withReadonly true
          else s.session
        failedCount := failures (life (ms ++ [.tick io])) } := by
  obtain ⟨flushes, syncs⟩ := io
  cases flushes <;> cases syncs <;>
    simp [syncWorker, FileManager.sync, hactive, hcount, failures_concat, Move.Fails] <;>
    split_ifs <;> rfl

end Supervised
end PedroDB
