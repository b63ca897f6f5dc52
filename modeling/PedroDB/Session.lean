import Mathlib.Data.List.Sort
import PedroDB.Compacting
import PedroDB.Lib.Transition
import PedroDB.Reads

/-!
# One client

One client issues its calls one after another. `Compact()` is a call like the others,
taken one atomic block at a time; the executor runs its tasks in between.

## Main definitions

* `Session`, `Session.Action`, `Session.step` — the system
* `Session.fresh`, `Session.Reaches` — the runs on a new database
* `Session.written` — what the writes of a run leave
* `Session.Within`, `Session.Removal`, `Session.SettledRead` — conditions on the steps of
  a run
* `Session.Maintained`, `Session.Careful` — several of them together
* `Session.Inv` — what holds all along a run that meets them

## Main results

* `Session.exists_fresh` — a new database opens, in a sound state
* `Session.Inv.step` — one step
* `Session.exists_inv_cacheOk` — the end of a careful run
-/

namespace PedroDB

open Transition

/-- A database and its only client. -/
structure Session where
  db : DBImpl
  /-- The buffer that the iterators of the client's thread share. -/
  buffer : ReadBuffer
  /-- The files that the running `Compact()` has polled and not started. -/
  queue : List ℕ
  compaction : Compaction

namespace Session

inductive Action
  | write (w : Write)
  | get (use_read_cache : Bool) (key : Key)
  /-- `Compact()` is called and polls its files. -/
  | compact
  /-- The running `Compact()` takes its next atomic block. -/
  | block
  /-- The executor runs its `i`-th task. -/
  | task (i : ℕ)

/-- The value that the writes of a run leave at each key. -/
def written (as : List Action) : Key → Option Bytes :=
  as.foldl (fun values a =>
    match a with
    | .write w => Function.update values w.key (if w.value = [] then none else some w.value)
    | _ => values) fun _ => none

theorem written_write {as : List Action} {w : Write} {key : Key} :
    written (as ++ [.write w]) key =
      if key = w.key then if w.value = [] then none else some w.value else written as key := by
  simp only [written, List.foldl_append, List.foldl_cons, List.foldl_nil]
  by_cases hkey : key = w.key
  · rw [if_pos hkey, hkey, Function.update_self]
  · rw [if_neg hkey, Function.update_of_ne hkey]

/-- No call is running. -/
def Quiescent (s : Session) : Prop := s.queue = [] ∧ s.compaction = .idle

instance (s : Session) : Decidable s.Quiescent := inferInstanceAs (Decidable (_ ∧ _))

variable [Platform] (opt : Options)

/-- The next atomic block of the running `Compact()`, which takes its files in order. -/
def compactBlock (s : Session) : Option Session :=
  match s.compaction, s.queue with
  | .idle, [] => none
  | .idle, id :: queue => some { s with queue, compaction := .start id }
  | c, _ =>
    (DBImpl.compactStep .sound c s.buffer s.db).map fun (compaction, buffer, db) =>
      { s with compaction, buffer, db }

def step (s : Session) : Action → Option Session
  | .write w =>
    if s.Quiescent then (s.db.handlePut opt .sound w).map fun (_, db) => { s with db } else none
  | .get use_read_cache key =>
    if s.Quiescent then
      (s.db.handleGet opt use_read_cache key s.buffer).map fun (_, db, buffer) =>
        { s with db, buffer }
    else none
  | .compact =>
    if s.Quiescent then
      some { s with queue := s.db.pollCompactTask.1.mergeSort (· ≤ ·), db := s.db.pollCompactTask.2 }
    else none
  | .block => s.compactBlock
  | .task i =>
    (s.db.fileManager.runTask i).map fun fileManager => { s with db := { s.db with fileManager } }

/-- A new database of this name, just opened. -/
def fresh (name : Bytes) : Option Session :=
  (DBImpl.openDb opt .sound name Disk.empty ReadBuffer.empty).map fun (_, db, buffer) =>
    { db, buffer, queue := [], compaction := .idle }

/-- The actions lead from a new database to state `s`. -/
def Reaches (name : Bytes) (as : List Action) (s : Session) : Prop :=
  ∃ s₀, fresh opt name = some s₀ ∧ Run (step opt) s₀ as s

/-- Every step on the way from a new database meets the guard. -/
def Guarded (g : Session → Action → Prop) (name : Bytes) (as : List Action) : Prop :=
  ∀ s₀, fresh opt name = some s₀ → Meets (step opt) g s₀ as

/-- Records are within the limits of their header, and the file ids do not run out. -/
def Within (s : Session) : Action → Prop
  | .write w =>
    w.Representable opt ∧
      ((DBImpl.entryOf opt w).size ≤ kMaxFileBytes →
        ¬ s.db.fileManager.Wraps (DBImpl.entryOf opt w))
  | .block =>
    match s.compaction with
    | .append _ _ next => ¬ s.db.fileManager.Wraps next
    | _ => True
  | _ => True

instance (s : Session) (a : Action) : Decidable (Within opt s a) := by
  unfold Within
  cases a with
  | write w => exact inferInstance
  | block => cases s.compaction <;> exact inferInstance
  | _ => exact inferInstance

/-- A live record of file `id` ends exactly at the end of the file. -/
def LiveAtEnd (db : DBImpl) (id : ℕ) : Prop :=
  ∃ key dir, db.find key = some dir ∧ dir.loc.id = id ∧
    dir.loc.offset + dir.entry_size = kMaxFileBytes

/-- The file that is removed is not the active one, and no live record ends exactly at
its end. -/
def Removal (s : Session) : Action → Prop
  | .block =>
    match s.compaction with
    | .finish id => id ≠ s.db.fileManager.activeFileId ∧ ¬ LiveAtEnd s.db id
    | _ => True
  | _ => True

/-- A read through the cache touches no block of the active file that is not yet full. -/
def SettledRead (s : Session) : Action → Prop
  | .get use_read_cache key =>
    match s.db.find key with
    | none => True
    | some dir =>
      DBImpl.directlyRead opt use_read_cache dir s.db = true ∨
        dir.loc.id ≠ s.db.fileManager.activeFileId ∨
        (dir.loc.offset + dir.entry_size + 4095) / 4096 * 4096 ≤ s.db.fileManager.activeOffset
  | _ => True

instance (s : Session) (a : Action) : Decidable (SettledRead opt s a) := by
  unfold SettledRead
  cases a with
  | get use_read_cache key =>
    dsimp only
    cases s.db.find key <;> exact inferInstance
  | _ => exact inferInstance

/-- What holds all along a run. -/
structure Inv (opt : Options) (s : Session) (L : Log) : Prop where
  sound : s.db.Sound L
  written : L.Written opt
  scans : s.compaction.Scans s.db (fun _ => False) L s.buffer

/-! ### A new database -/

/-- The file manager of a new database: one empty file, registered and active. -/
def newFiles (name : Bytes) : FileManager :=
  { metadata := ((MetadataManager.createDatabase name).createFile .sound 1).2
    openFiles := LRUCache.create opt.max_open_files
    activeIndexLog := some 1
    activeDataFile := some 1
    activeFileId := 1
    dataFiles := Function.update (fun _ => DataFile.absent) 1
      { DataFile.absent with linked := true }
    indexLogs := Function.update (fun _ => []) 1 []
    indexFiles := fun _ => none
    tasks := [] }

/-- A new database. -/
def newDb (name : Bytes) : DBImpl := { DBImpl.create opt (newFiles opt name) with maxFile := 1 }

variable {opt} {name : Bytes}

/-- Guards are evaluated along a run from the new database. -/
theorem guarded_of_check {g : Session → Action → Prop} [∀ s a, Decidable (g s a)]
    {as : List Action}
    (h : ((fresh opt name).map fun s => check (step opt) g s as).getD true = true) :
    Guarded opt g name as := by
  intro s₀ hs₀
  rw [hs₀, Option.map_some, Option.getD_some] at h
  exact meets_of_check h

theorem newFiles_holds : (newFiles opt name).Holds fun _ => [] where
  files := fun id =>
    { data := by
        by_cases hid : id = 1
        · subst hid
          simp [newFiles, packAll, DataFile.absent]
        · simp [newFiles, packAll, DataFile.absent, hid]
      fits := Nat.zero_le _
      storable := by simp }
  data := rfl
  log := rfl
  write := by simp [FileManager.activeOffset, newFiles, DataFile.absent]
  fresh := by
    intro id hid
    have hne : id ≠ 1 := Nat.ne_of_gt hid
    simp [newFiles, DataFile.absent, hne]

theorem newFiles_indexed : (newFiles opt name).Indexed fun _ => [] where
  active := by simp [newFiles, packLog, logFrom, Framing.framesFrom]
  tasks := by simp [newFiles]
  files := by simp [newFiles]

theorem newFiles_files : (newFiles opt name).metadata.files = {1} := by
  simp [newFiles, MetadataManager.createDatabase]

theorem newFiles_registered : (newFiles opt name).Registered where
  active := by
    rw [newFiles_files]
    exact Finset.mem_singleton_self 1
  linked := by
    intro id
    rw [newFiles_files, Finset.mem_singleton]
    by_cases hid : id = 1
    · subst hid
      simp [newFiles]
    · simp [newFiles, DataFile.absent, hid]
  le_active := by
    intro id hid
    rw [newFiles_files, Finset.mem_singleton] at hid
    exact hid.le
  opened := by simp [newFiles, LRUCache.create]
  wf := LRUCache.wf_create _
  logged := (MetadataManager.Logged.createDatabase name).createFile (by decide)
  bound := show 1 < 2 ^ 32 by decide

theorem init_empty :
    (FileManager.create opt.max_open_files (MetadataManager.createDatabase name)
      (fun id => DataFile.onDisk (Disk.empty.dataFiles id)) Disk.empty.indexFiles).init .sound =
        (.kOk, newFiles opt name) := by
  simp only [FileManager.init, FileManager.create, MetadataManager.createDatabase,
    MetadataManager.getFiles, Finset.sort_empty, List.getLast?_nil, FileManager.createFile,
    OpenData.sound, FileManager.openActive, FileManager.scheduleSeal, Disk.empty, DataFile.onDisk,
    DataFile.absent, Bool.false_eq_true, if_false]
  have habsent := FileManager.unPackAll_absent
  simp only [DataFile.absent] at habsent
  simp only [habsent, FileManager.rebuildLog, newFiles, MetadataManager.createDatabase,
    DataFile.absent]

/-- A new database opens. -/
theorem openDb_empty (opt : Options) (name : Bytes) (buffer : ReadBuffer) :
    ∃ rest, DBImpl.openDb opt .sound name Disk.empty buffer =
      some (.kOk, newDb opt name, rest) := by
  have hholds : (newFiles opt name).Holds fun _ => [] := newFiles_holds
  have hscan := (hholds.files 1).scan_eq buffer
  rcases hs : RecordIterator.scan ((newFiles opt name).dataFiles 1).data kMaxFileBytes
    (RecordIterator.create kMaxFileBytes) buffer with ⟨records, rest⟩
  rw [hs] at hscan
  obtain rfl : records = [] := by simpa [readableFrames, Framing.framesFrom] using hscan
  refine ⟨rest, ?_⟩
  have hfiles : (newFiles opt name).metadata.getFiles = [1] := by
    rw [MetadataManager.getFiles, newFiles_files, Finset.sort_singleton]
  have hacquire : (newFiles opt name).acquireDataFile 1 = (.kOk, newFiles opt name) := by
    rw [FileManager.acquireDataFile, if_pos (show 1 = (newFiles opt name).activeFileId from rfl)]
  have hrelease : (newFiles opt name).releaseDataFile 1 = newFiles opt name := by
    simp [FileManager.releaseDataFile, newFiles, LRUCache.remove, LRUCache.find, LRUCache.create]
  have hopen : DBImpl.openMetadata name Disk.empty =
      some (MetadataManager.createDatabase name) := rfl
  have hindex : (newFiles opt name).indexFiles 1 = none := rfl
  simp only [DBImpl.openDb, hopen, init_empty, DBImpl.recovery, DBImpl.create, hfiles,
    DBImpl.recoverFiles, DBImpl.recoverFile, hindex, hacquire, hs, List.map_nil, List.foldlM_nil,
    Option.pure_def, Option.map_some, hrelease, newDb]
  rfl

theorem exists_fresh (opt : Options) (name : Bytes) :
    ∃ s, fresh opt name = some s ∧ s.db = newDb opt name ∧ s.Quiescent := by
  obtain ⟨rest, h⟩ := openDb_empty opt name ReadBuffer.empty
  exact ⟨_, by rw [fresh, h]; rfl, rfl, rfl, rfl⟩

theorem fresh_db {s : Session} (h : fresh opt name = some s) :
    s.db = newDb opt name ∧ s.Quiescent := by
  obtain ⟨s', h', hdb⟩ := exists_fresh opt name
  rw [h] at h'
  exact Option.some_inj.mp h' ▸ hdb

theorem newDb_sound : (newDb opt name).Sound fun _ => [] where
  holds := newFiles_holds
  indexed := newFiles_indexed
  registered := newFiles_registered
  pointed := by
    intro key dir hfind
    simp [DBImpl.find, newDb, DBImpl.create] at hfind
  kept := by
    intro key dir hfind
    simp [DBImpl.find, newDb, DBImpl.create] at hfind
  writable := rfl
  max := le_rfl

theorem Inv.fresh {s : Session} (h : fresh opt name = some s) : Inv opt s fun _ => [] := by
  obtain ⟨hdb, -, hidle⟩ := fresh_db h
  refine ⟨hdb ▸ newDb_sound, fun _ _ he => absurd he List.not_mem_nil, ?_⟩
  rw [hidle]
  exact trivial

/-! ### What a step does -/

/-- The location that the next record gets. -/
abbrev nextLoc (s : Session) (e : Entry) : Location := s.db.fileManager.nextLoc e

/-- The database once the record is in the log. -/
abbrev appended (s : Session) (e : Entry) : DBImpl :=
  { s.db with fileManager := s.db.fileManager.appended e }

/-- The step that a run of `Compact` takes next changes neither log nor index. -/
def Reading : Compaction → Prop
  | .append .. | .install .. | .finish _ => False
  | _ => True

/-- What a step can do to a state of the invariant, and to the records in the files. -/
inductive Effect (opt : Options) (s : Session) (L : Log) : Action → Session → Log → Prop
  | refused {w : Write} (hidle : s.Quiescent)
      (hbig : kMaxFileBytes < (DBImpl.entryOf opt w).size) : Effect opt s L (.write w) s L
  | write {w : Write} (hidle : s.Quiescent) (hs : (DBImpl.entryOf opt w).Storable)
      (hwrap : ¬ s.db.fileManager.Wraps (DBImpl.entryOf opt w)) :
      Effect opt s L (.write w)
        { s with
          db := (DBImpl.updateIndex opt w (s.nextLoc (DBImpl.entryOf opt w))
            (s.appended (DBImpl.entryOf opt w))).2 }
        (L.add (s.nextLoc (DBImpl.entryOf opt w)).id (DBImpl.entryOf opt w))
  | get {use_read_cache : Bool} {key : Key} {reply : Reply} {o : LRUCache ℕ Unit}
      {cache : SegmentCache Bytes} {buffer : ReadBuffer} {db : DBImpl} (hidle : s.Quiescent)
      (hdb : db = { s.db with
        readCache := cache
        fileManager := { s.db.fileManager with openFiles := o } })
      (hget : s.db.handleGet opt use_read_cache key s.buffer = some (reply, db, buffer))
      (hsound : db.Sound L) :
      Effect opt s L (.get use_read_cache key) { s with db, buffer } L
  | compact (hidle : s.Quiescent) {queue : List ℕ} :
      Effect opt s L .compact { s with queue, db := s.db.pollCompactTask.2 } L
  | read {c : Compaction} {buffer : ReadBuffer} {queue : List ℕ} {o : LRUCache ℕ Unit}
      {f : ℕ → FileState} {db : DBImpl} (hreading : Reading s.compaction)
      (hc : ∀ id it next loc, c ≠ .install id it next loc)
      (hdb : db = { s.db with
        fileStates := f
        fileManager := { s.db.fileManager with openFiles := o } })
      (hinv : Inv opt { db, buffer, queue, compaction := c } L) :
      Effect opt s L .block { db, buffer, queue, compaction := c } L
  | append {id : ℕ} {it : RecordIterator} {next : Entry}
      (hc : s.compaction = .append id it next) (hwrap : ¬ s.db.fileManager.Wraps next)
      (hs : next.Storable) :
      Effect opt s L .block
        { s with db := s.appended next, compaction := .install id it next (s.nextLoc next) }
        (L.add (s.nextLoc next).id next)
  | install {id : ℕ} {it : RecordIterator} {next : Entry} {loc : Location}
      (hc : s.compaction = .install id it next loc) :
      Effect opt s L .block
        { s with db := s.db.compactInstall next loc, compaction := .scan id it } L
  | finish {id : ℕ} (hc : s.compaction = .finish id) :
      Effect opt s L .block { s with db := s.db.compactFinish id, compaction := .idle } L
  | task {i : ℕ} {fm : FileManager} (hrun : s.db.fileManager.runTask i = some fm) :
      Effect opt s L (.task i) { s with db := { s.db with fileManager := fm } } L

namespace Inv

variable {s s' : Session} {a : Action} {L L' : Log}

theorem compactBlock_effect (h : Inv opt s L) (hw : Within opt s .block)
    (hstep : s.compactBlock = some s') : ∃ L', Effect opt s L .block s' L' := by
  have hsame : ({ s.db with fileStates := s.db.fileStates } : DBImpl) = s.db := rfl
  have hnone : ∀ loc : Location, False → ∃ e, Located L loc e ∧ e.type = .kSet := by simp
  have hscans := h.scans
  unfold compactBlock at hstep
  rcases hc : s.compaction with _ | id | id | ⟨id, it⟩ | ⟨id, it, offset, next⟩ |
    ⟨id, it, next⟩ | ⟨id, it, next, loc⟩ | id <;> rw [hc] at hscans hstep
  · -- The next file is taken from the queue.
    cases hq : s.queue with
    | nil => simp [hq] at hstep
    | cons id queue =>
      simp only [hq, Option.some.injEq] at hstep
      subst hstep
      exact ⟨L, .read (o := s.db.fileManager.openFiles) (f := s.db.fileStates)
        (by rw [hc]; trivial) (by simp) rfl ⟨h.sound, h.written, trivial⟩⟩
  · -- The file opens, or it is registered no more.
    obtain ⟨o, hstart, hsound⟩ := h.sound.compactStart_eq id
    simp only [DBImpl.compactStep, hstart, Option.map_some, Option.some.injEq] at hstep
    subst hstep
    refine ⟨L, .read (f := s.db.fileStates) (by rw [hc]; trivial) ?_ rfl ⟨hsound, h.written, ?_⟩⟩
    · split_ifs <;> simp
    · dsimp only
      split_ifs with hid
      · exact hid
      · exact trivial
  · -- The state of the file becomes `kCompacting`.
    simp only [DBImpl.compactStep, Option.map_some, Option.some.injEq] at hstep
    subst hstep
    exact ⟨L, .read (o := s.db.fileManager.openFiles) (by rw [hc]; trivial) (by simp) rfl
      ⟨h.sound.reindex rfl rfl h.sound.max fun _ _ hd => Or.inl hd, h.written,
        Compaction.Scans.mark hscans⟩⟩
  · -- The next record, or the end of the file.
    simp only [DBImpl.compactStep, Option.map_some, Option.some.injEq] at hstep
    subst hstep
    refine ⟨L, .read (o := s.db.fileManager.openFiles) (f := s.db.fileStates)
      (by rw [hc]; trivial) ?_ rfl ⟨h.sound, h.written, Compaction.Scans.scan h.sound hnone hscans⟩⟩
    intro id' it' next' loc'
    rcases DBImpl.compactScan_cases id it s.buffer s.db with hc | ⟨e, it₁, -, hc | ⟨o, hc⟩⟩ <;>
      simp [hc]
  · simp only [DBImpl.compactStep, Option.map_some, Option.some.injEq] at hstep
    subst hstep
    refine ⟨L, .read (o := s.db.fileManager.openFiles) (f := s.db.fileStates)
      (by rw [hc]; trivial) ?_ rfl
      ⟨h.sound, h.written, Compaction.Scans.check h.sound hnone hscans not_false⟩⟩
    intro id' it' next' loc'
    rcases DBImpl.compactCheck_cases id it offset next s.db with hc | ⟨-, -, -, hc⟩ <;> simp [hc]
  · -- The copy is appended within the limits.
    have hwrap : ¬ s.db.fileManager.Wraps next := by simpa [Within, hc] using hw
    obtain ⟨happend, -, -⟩ := hscans.append h.sound hwrap
    simp only [DBImpl.compactStep, happend, Option.map_some, Option.some.injEq] at hstep
    subst hstep
    obtain ⟨-, pre, post, hb, -⟩ := hscans
    have hs := (h.sound.holds.files id).storable next (by rw [hb.records]; simp)
    exact ⟨_, .append hc hwrap hs⟩
  · simp only [DBImpl.compactStep, Option.map_some, Option.some.injEq] at hstep
    subst hstep
    exact ⟨L, .install hc⟩
  · simp only [DBImpl.compactStep, Option.map_some, Option.some.injEq] at hstep
    subst hstep
    exact ⟨L, .finish hc⟩

/-- Every step within the limits has one of these effects. -/
theorem effect (h : Inv opt s L) (hw : Within opt s a) (hstep : step opt s a = some s') :
    ∃ L', Effect opt s L a s' L' := by
  cases a with
  | write w =>
    obtain ⟨hrep, hwrap⟩ := hw
    simp only [step] at hstep
    split_ifs at hstep with hidle
    rcases Nat.lt_or_ge kMaxFileBytes (DBImpl.entryOf opt w).size with hbig | hsize
    · -- A record that is too big for a file is refused.
      rw [h.sound.handlePut_refused hrep hbig] at hstep
      obtain rfl : s = s' := by simpa using hstep
      exact ⟨L, .refused hidle hbig⟩
    · -- Any other one is appended and indexed.
      have hs := DBImpl.entryOf_storable hrep.key hsize
      rw [h.sound.handlePut_eq hs (hwrap hsize)] at hstep
      simp only [Option.map_some, Option.some.injEq] at hstep
      subst hstep
      exact ⟨_, .write hidle hs (hwrap hsize)⟩
  | get use_read_cache key =>
    simp only [step] at hstep
    split_ifs at hstep with hidle
    obtain ⟨⟨reply, db, rest⟩, hget, heq⟩ := Option.map_eq_some_iff.mp hstep
    subst heq
    obtain ⟨o, cache, rfl, hsound⟩ := h.sound.handleGet_state hget
    exact ⟨L, .get hidle rfl hget hsound⟩
  | compact =>
    simp only [step] at hstep
    split_ifs at hstep with hidle
    simp only [Option.some.injEq] at hstep
    subst hstep
    exact ⟨L, .compact hidle⟩
  | block => exact h.compactBlock_effect hw hstep
  | task i =>
    obtain ⟨fm, hrun, heq⟩ := Option.map_eq_some_iff.mp hstep
    subst heq
    exact ⟨L, .task hrun⟩

end Inv

omit [Platform] in
/-- Where the run of `Compact` stands does not depend on what is left unchanged. -/
theorem scans_congr {c : Compaction} {db db' : DBImpl} {L : Log} {buffer : ReadBuffer}
    (h : c.Scans db (fun _ => False) L buffer) (hfind : db'.indices = db.indices)
    (hfiles : db'.fileManager.metadata = db.fileManager.metadata) :
    c.Scans db' (fun _ => False) L buffer := by
  have hlive : ∀ loc, db'.Live (fun _ => False) loc → db.Live (fun _ => False) loc := by
    simp only [DBImpl.Live, DBImpl.find, hfind]
    exact fun _ hl => hl
  exact h.mono
    { records := fun _ => ⟨[], (List.append_nil _).symm⟩
      live := fun loc hl => Or.inl (hlive loc hl)
      pend := fun _ hp => hp.elim
      files := by rw [hfiles] }
    fun _ _ loc hl _ => hlive loc hl

namespace Inv

variable {s s' : Session} {a : Action} {L L' : Log}

/-- One step keeps the invariant, if it does not remove a file that is still needed. -/
theorem step (h : Inv opt s L) (he : Effect opt s L a s' L') (hr : Removal s a) :
    Inv opt s' L' := by
  cases he with
  | refused => exact h
  | @write w hidle hs hwrap =>
    have happ := h.sound.appended hs hwrap
    refine ⟨happ.updateIndex ?_ ?_, h.written.add ⟨w, rfl⟩, ?_⟩
    · -- The record stands where `Append` says.
      have := located_endOf L (s.nextLoc (DBImpl.entryOf opt w)).id (DBImpl.entryOf opt w)
      rwa [← h.sound.holds.nextLoc_eq] at this
    · rw [FileManager.nextLoc_id]
      exact happ.registered.active
    · -- No compaction is going on between two calls.
      dsimp only
      rw [hidle.2]
      exact trivial
  | get hidle hdb hget hsound =>
    refine ⟨hsound, h.written, ?_⟩
    dsimp only
    rw [hidle.2]
    exact trivial
  | compact hidle =>
    refine ⟨h.sound.reindex rfl rfl h.sound.max fun _ _ hd => Or.inl hd, h.written, ?_⟩
    dsimp only
    rw [hidle.2]
    exact trivial
  | read _ _ _ hinv => exact hinv
  | @append id it next hc hwrap hs =>
    have hscans := h.scans
    rw [hc] at hscans
    obtain ⟨-, hscans', hsound'⟩ := hscans.append h.sound hwrap
    obtain ⟨-, pre, post, hb, -⟩ := hscans
    exact ⟨hsound', h.written.add (h.written _ next (by rw [hb.records]; simp)), hscans'⟩
  | install hc =>
    have hscans := h.scans
    rw [hc] at hscans
    have hbusy := hscans
    obtain ⟨hid, pre, post, hb, -, hloc, -, hfile⟩ := hbusy
    exact ⟨h.sound.compactInstall hloc hb.type hfile, h.written, hscans.install h.sound (by simp)⟩
  | finish hc =>
    have hscans := h.scans
    rw [hc] at hscans
    obtain ⟨hid, hend⟩ := hscans
    obtain ⟨hactive, hlive⟩ : _ ∧ _ := by simpa [Removal, hc] using hr
    have hbound := (h.sound.registered.le_active _ hid).trans_lt h.sound.registered.bound
    -- The file is not active, and no live record is left in it.
    refine ⟨h.sound.compactFinish hactive hbound fun key dir hfind hdir => hlive ?_, h.written,
      trivial⟩
    obtain ⟨e, he, hsize⟩ := hend dir.loc (Or.inl ⟨key, dir, hfind, rfl⟩) hdir
    obtain ⟨e', he', -, -, hsize'⟩ := h.sound.pointed key dir hfind
    exact ⟨key, dir, hfind, hdir, by rw [hsize', he'.unique he, hsize]⟩
  | task hrun =>
    refine ⟨h.sound.runTask hrun, h.written, ?_⟩
    obtain ⟨tasks, indexFiles, heq⟩ := FileManager.runTask_eq hrun
    exact scans_congr h.scans rfl (by rw [heq])

end Inv

section

variable {s : Session} {L : Log} {e : Entry}

/-- A record that stands in a registered file after an append is the new one, or stood
there before. -/
theorem located_appended {loc : Location} {x : Entry} (h : s.db.fileManager.Holds L)
    (hmem : loc.id ∈ (s.db.fileManager.appended e).metadata.files)
    (hloc : Located (L.add (s.nextLoc e).id e) loc x) :
    loc = s.nextLoc e ∧ x = e ∨ loc.id ∈ s.db.fileManager.metadata.files ∧ Located L loc x :=
  h.located_appended hmem hloc

/-- A new record stands behind all records of registered files. -/
theorem lt_nextLoc {loc : Location} {x : Entry} (h : s.db.Sound L)
    (hmem : loc.id ∈ s.db.fileManager.metadata.files) (hloc : Located L loc x) :
    loc < s.nextLoc e :=
  h.holds.lt_nextLoc h.registered hmem hloc

end

/-- A run of `Compact` that is under way on file `f`. -/
def Passing (f : ℕ) : Compaction → Prop
  | .scan id _ | .check id _ _ _ | .append id _ _ | .install id _ _ _ | .finish id => id = f
  | _ => False

/-- A step that only reads goes on with its file, counts nothing, and leads to an `Append`
only for a record that the index points at. -/
theorem compactBlock_reading {s s' : Session} (hreading : Reading s.compaction)
    (hstep : s.compactBlock = some s') :
    (∀ f, Passing f s.compaction → Passing f s'.compaction) ∧
      (∀ f, (s'.db.fileStates f).free_bytes = (s.db.fileStates f).free_bytes) ∧
      ∀ id it next, s'.compaction = .append id it next → ∃ offset dir,
        s.compaction = .check id it offset next ∧ s.db.find next.key = some dir ∧
          dir.loc = ⟨id, offset⟩ := by
  unfold compactBlock at hstep
  rcases hc : s.compaction with _ | id | id | ⟨id, it⟩ | ⟨id, it, offset, next⟩ |
    ⟨id, it, next⟩ | ⟨id, it, next, loc⟩ | id <;> rw [hc] at hstep hreading
  · cases hq : s.queue with
    | nil => simp [hq] at hstep
    | cons id queue =>
      simp only [hq, Option.some.injEq] at hstep
      subst hstep
      simp [Passing]
  · simp only [DBImpl.compactStep, Option.map_some, Option.some.injEq] at hstep
    subst hstep
    dsimp only [DBImpl.compactStart]
    split_ifs
    · simp [Passing]
    · split <;> simp [Passing]
  · simp only [DBImpl.compactStep, Option.map_some, Option.some.injEq] at hstep
    subst hstep
    refine ⟨by simp [Passing], fun f => ?_, by simp⟩
    by_cases hf : f = id
    · subst hf
      simp [DBImpl.compactMark]
    · simp [DBImpl.compactMark, hf]
  · simp only [DBImpl.compactStep, Option.map_some, Option.some.injEq] at hstep
    subst hstep
    rcases DBImpl.compactScan_cases id it s.buffer s.db with hc | ⟨e, it', -, hc | ⟨o, hc⟩⟩ <;>
      simp [hc, Passing]
  · simp only [DBImpl.compactStep, Option.map_some, Option.some.injEq] at hstep
    subst hstep
    rcases DBImpl.compactCheck_cases id it offset next s.db with hc | ⟨dir, hfind, hdir, hc⟩
    · simp [hc, Passing]
    · -- The record is live, and the copy goes on.
      refine ⟨by simp [hc, Passing], fun _ => rfl, ?_⟩
      dsimp only
      rw [hc]
      rintro id' it' next' ⟨⟩
      exact ⟨offset, dir, rfl, hfind, hdir⟩
  · exact hreading.elim
  · exact hreading.elim
  · exact hreading.elim

/-! ### Copies -/

/-- The record that is being copied is the live one of its key. -/
def Copying (s : Session) (L : Log) : Prop :=
  match s.compaction with
  | .append id _ next =>
    ∃ dir, s.db.find next.key = some dir ∧ dir.loc.id = id ∧ Located L dir.loc next
  | .install id _ next loc =>
    ∃ dir, s.db.find next.key = some dir ∧ dir.loc.id = id ∧ Located L dir.loc next ∧
      dir.loc < loc
  | _ => True

namespace Copying

variable {s s' : Session} {a : Action} {L L' : Log}

omit [Platform] in
theorem of_not_copying (happend : ∀ id it next, s.compaction ≠ .append id it next)
    (hinstall : ∀ id it next loc, s.compaction ≠ .install id it next loc) : Copying s L := by
  unfold Copying
  split
  · next hc => exact absurd hc (happend _ _ _)
  · next hc => exact absurd hc (hinstall _ _ _ _)
  · trivial

omit [Platform] in
theorem of_idle (hidle : s.compaction = .idle) : Copying s L :=
  of_not_copying (by simp [hidle]) (by simp [hidle])

theorem step (h : Copying s L) (hinv : Inv opt s L) (he : Effect opt s L a s' L')
    (hstep : Session.step opt s a = some s') : Copying s' L' := by
  cases he with
  | refused => exact h
  | write hidle => exact of_idle hidle.2
  | get hidle => exact of_idle hidle.2
  | compact hidle => exact of_idle hidle.2
  | @read c _ _ _ _ db hreading hnot hdb =>
    obtain ⟨-, -, hlive⟩ := compactBlock_reading hreading hstep
    cases c with
    | append id it next =>
      obtain ⟨offset, dir, hc, hfind, hdir⟩ := hlive id it next rfl
      have hscans := hinv.scans
      rw [hc] at hscans
      obtain ⟨-, pre, post, hb, rfl⟩ := hscans
      refine ⟨dir, by rw [hdb]; exact hfind, by rw [hdir], ?_⟩
      rw [hdir, Located, hb.records]
      exact Framing.at_total pre next post
    | install id it next loc => exact absurd rfl (hnot id it next loc)
    | _ => trivial
  | @append id it next hc hwrap hs =>
    unfold Copying at h
    rw [hc] at h
    obtain ⟨dir, hfind, hid, hloc⟩ := h
    exact ⟨dir, hfind, hid, hloc.add _ _, lt_nextLoc hinv.sound (hinv.sound.kept _ _ hfind) hloc⟩
  | install => exact of_not_copying (by simp) (by simp)
  | finish => exact of_idle rfl
  | task => exact h

end Copying

/-! ### The read cache -/

variable {s s' : Session} {a : Action} {L L' : Log}

theorem newDb_cacheOk : (newDb opt name).fileManager.CacheOk (newDb opt name).readCache := by
  rintro x ⟨i, hx⟩
  simp [newDb, DBImpl.create, ReadCache.create, LRUCache.create] at hx

omit [Platform] in
/-- A block with a byte in front of `n` ends where the last such block ends. -/
theorem block_end_le {q n : ℕ} (h : q * 4096 < n) : (q + 1) * 4096 ≤ (n + 4095) / 4096 * 4096 :=
  Nat.mul_le_mul_right 4096 ((Nat.le_div_iff_mul_le (by decide)).mpr (by omega))

omit [Platform] in
/-- The blocks that a settled read touches are settled. -/
theorem settled_of_settledRead {use_read_cache : Bool} {key : Key} {dir : Dir}
    (h : SettledRead opt s (.get use_read_cache key)) (hfind : s.db.find key = some dir)
    (hactive : dir.loc.id ≤ s.db.fileManager.activeFileId)
    (hcached : DBImpl.directlyRead opt use_read_cache dir s.db = false) :
    ∀ q, ReadCache.Touches dir.loc.offset dir.entry_size q →
      s.db.fileManager.Settled dir.loc.id q := by
  rintro q ⟨-, hq⟩
  simp only [SettledRead, hfind, hcached, Bool.false_eq_true, false_or] at h
  rcases Nat.lt_or_ge dir.loc.id s.db.fileManager.activeFileId with hlt | hge
  · exact Or.inl hlt
  · have heq := Nat.le_antisymm hactive hge
    have hend := h.resolve_left (not_not.mpr heq)
    exact Or.inr ⟨heq, (block_end_le hq).trans hend⟩

/-- Settled reads, and every other step, keep the cached blocks equal to the files. -/
theorem Effect.cacheOk (he : Effect opt s L a s' L') (h : Inv opt s L)
    (hcache : s.db.fileManager.CacheOk s.db.readCache) (hsettled : SettledRead opt s a) :
    s'.db.fileManager.CacheOk s'.db.readCache := by
  cases he with
  | refused => exact hcache
  | write =>
    rw [DBImpl.updateIndex_fileManager, DBImpl.updateIndex_readCache]
    exact hcache.appended _
  | @get use_read_cache key _ _ _ _ _ hidle hdb hget hsound =>
    rcases hfind : s.db.find key with _ | dir
    · rw [DBImpl.handleGet_none hfind] at hget
      simp only [Option.some.injEq, Prod.mk.injEq] at hget
      exact hget.2.1 ▸ hcache
    · obtain ⟨w, hloc, -, -, hsize, -⟩ := h.sound.live_entry h.written hfind
      have hblocks := settled_of_settledRead hsettled hfind (h.sound.id_le_active hfind)
      obtain ⟨db', rest, heq, hcache'⟩ :=
        h.sound.handleGet_some opt use_read_cache s.buffer hcache hfind hloc hsize hblocks
      rw [heq] at hget
      simp only [Option.some.injEq, Prod.mk.injEq] at hget
      exact hget.2.1 ▸ hcache'
  | compact => exact hcache
  | read _ _ hdb => exact hdb ▸ hcache
  | append => exact hcache.appended _
  | @install _ _ next loc =>
    obtain ⟨states, indices, heq⟩ := DBImpl.compactInstall_eq next loc s.db
    rw [heq]
    exact hcache
  | finish => exact hcache.removeFile _
  | task hrun => exact hcache.runTask hrun

/-! ### Careful runs -/

/-- Records are within their limits, and no file is removed that is still needed. -/
def Maintained (opt : Options) (s : Session) (a : Action) : Prop :=
  Within opt s a ∧ Removal s a

/-- Records are within their limits, no file is removed that is still needed, and no
block of the active file is cached before it is full. -/
def Careful (opt : Options) (s : Session) (a : Action) : Prop :=
  Within opt s a ∧ Removal s a ∧ SettledRead opt s a

/-- The invariant holds at the end of a run that removes no file that is still needed. -/
theorem exists_inv (hmaintained : Guarded opt (Maintained opt) name as)
    (hreach : Reaches opt name as s) : ∃ L, Inv opt s L := by
  obtain ⟨s₀, hs₀, hrun⟩ := hreach
  refine hrun.invariant (P := fun s => ∃ L, Inv opt s L) (hmaintained s₀ hs₀)
    ⟨_, Inv.fresh hs₀⟩ ?_
  rintro t a u ⟨L, h⟩ ⟨hwithin, hremoval⟩ hstep
  obtain ⟨L', he⟩ := h.effect hwithin hstep
  exact ⟨L', h.step he hremoval⟩

/-- All along a careful run the cached blocks have the bytes of their files. -/
theorem exists_inv_cacheOk (hcareful : Guarded opt (Careful opt) name as)
    (hreach : Reaches opt name as s) :
    ∃ L, Inv opt s L ∧ s.db.fileManager.CacheOk s.db.readCache := by
  obtain ⟨s₀, hs₀, hrun⟩ := hreach
  have hfresh : s₀.db.fileManager.CacheOk s₀.db.readCache := by
    rw [(fresh_db hs₀).1]
    exact newDb_cacheOk
  refine hrun.invariant
    (P := fun s => ∃ L, Inv opt s L ∧ s.db.fileManager.CacheOk s.db.readCache) (hcareful s₀ hs₀)
    ⟨_, Inv.fresh hs₀, hfresh⟩ ?_
  rintro t a u ⟨L, h, hcache⟩ ⟨hwithin, hremoval, hsettled⟩ hstep
  obtain ⟨L', he⟩ := h.effect hwithin hstep
  exact ⟨L', h.step he hremoval, he.cacheOk h hcache hsettled⟩

/-- A call that reads or writes, or a task of the executor. -/
def Action.IsAccess : Action → Prop
  | .compact => False
  | .block => False
  | _ => True

instance (a : Action) : Decidable a.IsAccess := by
  unfold Action.IsAccess
  cases a <;> exact inferInstance

omit [Platform] in
theorem Action.IsAccess.removal (ha : a.IsAccess) : Removal s a := by
  cases a <;> trivial

/-- A run of accesses is careful if it is within the limits and reads settled blocks. -/
theorem careful_of_check {as : List Action} (haccess : ∀ a ∈ as, a.IsAccess)
    (hcheck : ((fresh opt name).map fun s =>
      check (step opt) (fun s a => Within opt s a ∧ SettledRead opt s a) s as).getD true = true) :
    Guarded opt (Careful opt) name as := by
  intro s₀ hs₀ pre a post t heq hpre
  obtain ⟨hwithin, hsettled⟩ := guarded_of_check hcheck s₀ hs₀ pre a post t heq hpre
  exact ⟨hwithin, (haccess a (by simp [heq])).removal, hsettled⟩

/-- `Get` of a live key returns, with the value that was put unless it hides the record. -/
theorem Inv.handleGet_live {key : Key} {dir : Dir} (h : Inv opt s L)
    (hcache : s.db.fileManager.CacheOk s.db.readCache) (hfind : s.db.find key = some dir) :
    ∃ w, Located L dir.loc (DBImpl.entryOf opt w) ∧
      ∀ use_read_cache, SettledRead opt s (.get use_read_cache key) → ∃ db buffer,
        s.db.handleGet opt use_read_cache key s.buffer =
          some (if s.db.hiddenRead opt use_read_cache key then ⟨.kCorruption, none⟩
            else ⟨.kOk, some w.value⟩, db, buffer) := by
  obtain ⟨w, hloc, -, -, hsize, -⟩ := h.sound.live_entry h.written hfind
  refine ⟨w, hloc, fun use_read_cache hread => ?_⟩
  have hblocks := settled_of_settledRead hread hfind (h.sound.id_le_active hfind)
  obtain ⟨db, rest, heq, -⟩ :=
    h.sound.handleGet_some opt use_read_cache s.buffer hcache hfind hloc hsize hblocks
  exact ⟨db, rest, by rw [heq, DBImpl.replyOf_entryOf]⟩

end Session
end PedroDB
