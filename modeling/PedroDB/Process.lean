import PedroDB.Appenders
import PedroDB.InFlight
import PedroDB.Reads
import PedroDB.Removed

/-!
# A `Get` while the rest of the process goes on

`HandleGet` copies the location of its record under `mu_` and opens the file afterwards: it
looks for it under the lock of the file manager, opens the path, and takes the lock again.
Writers and runs of `Compact(id)` take their own sections in between. Every section under a
lock, every open and every removal of a file is one step.

## Main definitions

* `Opening` — where a call of `AcquireDataFile` stands
* `Getting` — where a call of `HandleGet` stands
* `Worker` — a thread that writes or compacts
* `Process`, `Process.step` — the system
* `Process.Inv` — what holds in every state that it reaches

## Main results

* `Getting.recached` — `Get` touches the caches at most
* `Process.Inv.step` — one step of the process
-/

namespace PedroDB

open Framing Transition

/-- Where a call of `AcquireDataFile` stands. -/
inductive Opening
  /-- In front of the section that looks for the file. -/
  | lookup
  /-- The file is not open; in front of opening its path. -/
  | openPath
  /-- Opened; in front of `open_files_.Put`. -/
  | put
  /-- Returned, with the file. -/
  | opened
  /-- Returned, without. -/
  | failed (status : Status)
  deriving DecidableEq

/-- The next section of `AcquireDataFile`. -/
def Opening.next (id : ℕ) (fm : FileManager) : Opening → Option (Opening × FileManager)
  | .lookup =>
    if id = fm.activeFileId then some (.opened, fm)
    else
      match fm.openFiles.get id with
      | (some (), openFiles) => some (.opened, { fm with openFiles })
      | (none, openFiles) => some (.openPath, { fm with openFiles })
  | .openPath =>
    if (fm.dataFiles id).linked then some (.put, fm) else some (.failed .kIOError, fm)
  | .put => some (.opened, { fm with openFiles := fm.openFiles.put id () })
  | .opened | .failed _ => none

namespace SegmentCache

variable [Platform] {ν : Type*}

/-- `Get` -/
def get (c : SegmentCache ν) (key : ℕ) : Option ν × SegmentCache ν :=
  let (value, seg) := (c.segments (c.locate key)).get key
  (value, { c with segments := Function.update c.segments (c.locate key) seg })

/-- `Put` -/
def put (c : SegmentCache ν) (key : ℕ) (value : ν) : SegmentCache ν :=
  let seg := (c.segments (c.locate key)).put key value
  { c with segments := Function.update c.segments (c.locate key) seg }

end SegmentCache

/-- Where a call of `HandleGet` stands. -/
inductive Getting
  /-- Not called. -/
  | idle
  /-- In front of its section under `mu_`. -/
  | lookup (use_read_cache : Bool) (key : Key)
  /-- The record is read directly; in `AcquireDataFile`, or in front of reading it. -/
  | direct (dir : Dir) (o : Opening)
  /-- In front of block `i`, on the file that was opened, if one was. -/
  | block (ctx : ReadCache.Context) (i : ℕ) (file : Option ℕ)
  /-- Block `i` is not cached; in `AcquireDataFile`, or in front of reading it. -/
  | fill (ctx : ReadCache.Context) (i : ℕ) (file : Option ℕ) (o : Opening)
  | returned (reply : Reply)

/-- A thread that writes or compacts. -/
inductive Worker
  | idle
  /-- `HandlePut`, in `Append` or in front of its section under `mu_`. -/
  | put (w : Write) (a : Appending)
  /-- `Compact(id)`, in `AcquireDataFile`. -/
  | opening (id : ℕ) (o : Opening)
  /-- `Compact(id)`, in front of another block. -/
  | compact (c : Compaction)
  /-- `Compact(id)`, in `Append` or in front of the index update. -/
  | copy (id : ℕ) (it : RecordIterator) (next : Entry) (a : Appending)

/-- A database, the threads of its process, and a call of `Get`. -/
structure Process where
  db : DBImpl
  threads : ℕ → Worker
  /-- The buffer that the iterators of each thread share. -/
  buffers : ℕ → ReadBuffer
  get : Getting

section

variable [Platform] (opt : Options)

namespace Getting

/-- A direct read, on the file that was opened. -/
def readRecord (dir : Dir) (fm : FileManager) : Reply :=
  match ((RecordIterator.create kMaxFileBytes).seek dir.loc.offset).1.valid
      (fm.dataFiles dir.loc.id).data ReadBuffer.empty with
  | (false, _) => { status := .kCorruption, value := none }
  | (true, it, _) => DBImpl.replyOf opt it.next.1

/-- The end of a read through the cache. -/
def buildReply (ctx : ReadCache.Context) : Reply :=
  match ctx.build with
  | (.kOk, some e) => DBImpl.replyOf opt e
  | (status, _) => { status, value := none }

/-- The supplier reads block `i` of file `id`, which was opened. -/
def fillBlock (ctx : ReadCache.Context) (i id : ℕ) (file : ReadableFile) (db : DBImpl) :
    Getting × DBImpl :=
  match file.read (ReadCache.blockOffset i) ReadCache.blockSize with
  | some bytes =>
    (.block (ctx.addBlock i bytes) (i + 1) (some id),
      { db with readCache := db.readCache.put i bytes })
  | none => (.returned { status := .kIOError, value := none }, db)

/-- The next section of `HandleGet`. -/
def next (db : DBImpl) : Getting → Option (Getting × DBImpl)
  | .idle | .returned _ => none
  | .lookup use_read_cache key =>
    -- The lookup holds `mu_`, and releases it before the file is read.
    match db.find key with
    | none => some (.returned { status := .kNotFound, value := none }, db)
    | some dir =>
      if DBImpl.directlyRead opt use_read_cache dir db then some (.direct dir .lookup, db)
      else
        some (.block (ReadCache.Context.create dir.loc dir.entry_size)
          (ReadCache.blockIdx dir.loc.id dir.loc.offset) none, db)
  -- The read itself, with a handle that outlives the cache entry.
  | .direct dir .opened => some (.returned (readRecord opt dir db.fileManager), db)
  | .direct _ (.failed status) => some (.returned { status, value := none }, db)
  | .direct dir o =>
    (o.next dir.loc.id db.fileManager).map fun (o, fileManager) =>
      (.direct dir o, { db with fileManager })
  | .block ctx i file =>
    -- The loop is done, and `Build` decodes.
    if ctx.end_ ≤ ReadCache.blockOffset i then some (.returned (buildReply opt ctx), db)
    else
      match db.readCache.get i with
      | (some bytes, readCache) =>
        -- A hit in the segment of the block.
        some (.block (ctx.addBlock i bytes) (i + 1) file, { db with readCache })
      | (none, readCache) =>
        -- A miss. `GetOrCompute` keeps the lock of the segment, which no writer ever takes.
        some (.fill ctx i file (if file.isSome then .opened else .lookup), { db with readCache })
  | .fill ctx i file .opened =>
    -- The supplier reads with the handle that the call has, or the one it has just opened.
    let id := file.getD (ReadCache.blockFile i)
    some (fillBlock ctx i id (db.fileManager.readable id) db)
  | .fill _ _ _ (.failed status) => some (.returned { status, value := none }, db)
  | .fill ctx i file o =>
    (o.next (ReadCache.blockFile i) db.fileManager).map fun (o, fileManager) =>
      (.fill ctx i file o, { db with fileManager })

/-- The reply that `HandleGet` has returned. -/
def reply : Getting → Option Reply
  | .returned reply => some reply
  | _ => none

end Getting

namespace Worker

/-- A run of `Compact(id)` that goes on with `c`. -/
def ofCompaction : Compaction → Worker
  | .idle => .idle
  | .append id it next => .copy id it next (.start next)
  | c => .compact c

/-- `Compact(id)` once `AcquireDataFile` stands at `o`. -/
def ofOpening (id : ℕ) : Opening → Worker
  | .opened => .compact (.mark id)
  | .failed _ => .idle
  | o => .opening id o

/-- The next section of a thread. -/
def next (buffer : ReadBuffer) (db : DBImpl) : Worker → Option (Worker × ReadBuffer × DBImpl)
  | .idle => none
  | .put w (.returned _ loc) => some (.idle, buffer, (DBImpl.updateIndex opt w loc db).2)
  | .put w a =>
    (a.next db.fileManager).map fun (a, fileManager) => (.put w a, buffer, { db with fileManager })
  | .opening id o =>
    (o.next id db.fileManager).map fun (o, fileManager) =>
      (ofOpening id o, buffer, { db with fileManager })
  | .compact c =>
    (DBImpl.compactStep .sound c buffer db).map fun (c, buffer, db) => (ofCompaction c, buffer, db)
  | .copy id it next (.returned _ loc) =>
    some (.compact (.scan id it), buffer, DBImpl.compactInstall next loc db)
  | .copy id it next a =>
    (a.next db.fileManager).map fun (a, fileManager) =>
      (.copy id it next a, buffer, { db with fileManager })

end Worker

namespace Process

inductive Action
  /-- A client calls `Put` or `Delete`. -/
  | write (t : ℕ) (w : Write)
  /-- `Compact(id)` is called. -/
  | compact (t id : ℕ)
  /-- Thread `t` takes its next section. -/
  | next (t : ℕ)
  /-- The executor runs its `i`-th task. -/
  | task (i : ℕ)
  /-- `Get(key)` is called. -/
  | call (use_read_cache : Bool) (key : Key)
  /-- `Get` takes its next section. -/
  | get
  deriving DecidableEq

/-- Nothing has been called. -/
def start (db : DBImpl) : Process :=
  { db, threads := fun _ => .idle, buffers := fun _ => ReadBuffer.empty, get := .idle }

def step (s : Process) : Action → Option Process
  | .write t w =>
    match s.threads t, DBImpl.prepare opt w s.db with
    | .idle, .ok e => some { s with threads := Function.update s.threads t (.put w (.start e)) }
    | .idle, .error _ => some s
    | _, _ => none
  | .compact t id =>
    match s.threads t with
    | .idle =>
      if s.db.readonly then some s
      else some { s with threads := Function.update s.threads t (.opening id .lookup) }
    | _ => none
  | .next t =>
    ((s.threads t).next opt (s.buffers t) s.db).map fun (th, buffer, db) =>
      { s with
        db
        threads := Function.update s.threads t th
        buffers := Function.update s.buffers t buffer }
  | .task i =>
    (s.db.fileManager.runTask i).map fun fileManager => { s with db := { s.db with fileManager } }
  | .call use_read_cache key =>
    match s.get with
    | .idle | .returned _ => some { s with get := .lookup use_read_cache key }
    | _ => none
  | .get => (s.get.next opt s.db).map fun (get, db) => { s with get, db }

end Process

end

/-! ### What the threads know -/

/-- The call of `Append` that a thread is in. -/
def Worker.appending : Worker → Option Appending
  | .put _ a | .copy _ _ _ a => some a
  | _ => none

section

variable [Platform] {opt : Options} {fm fm' : FileManager} {L L' : Log} {a a' : Appending}
  {e : Entry} {id : ℕ}

/-- What a section of a thread does to the files: records stay where they are. -/
structure FileManager.Advances (fm : FileManager) (L : Log) (fm' : FileManager) (L' : Log) :
    Prop where
  holds : fm'.Holds L'
  grows : fm.Grows L fm' L'
  records : ∀ j, ∃ xs, L' j = L j ++ xs
  bound : fm'.activeFileId < 2 ^ 32

namespace FileManager.Advances

/-- The files are as they were. -/
theorem same (hholds : fm'.Holds L) (hbound : fm'.activeFileId < 2 ^ 32)
    (hdata : ∀ j, (fm'.dataFiles j).writeIndex = (fm.dataFiles j).writeIndex)
    (hactive : fm'.activeFileId = fm.activeFileId) : fm.Advances L fm' L where
  holds := hholds
  grows := ⟨hactive.ge, fun j hj => ⟨hactive ▸ hj.le_active, (hdata j).trans hj.write⟩,
    fun _ _ h => h⟩
  records _ := ⟨[], (List.append_nil _).symm⟩
  bound := hbound

theorem refl (h : fm.Holds L) (hbound : fm.activeFileId < 2 ^ 32) : fm.Advances L fm L :=
  same h hbound (fun _ => rfl) rfl

/-- A record is packed into a file. -/
theorem addRecord (h : fm.Holds L) (hbound : fm.activeFileId < 2 ^ 32) (hs : e.Storable)
    (hid : fm.Writable L id) (hfits : totalSize (L id) + e.size ≤ kMaxFileBytes) :
    fm.Advances L (fm.addRecord id e) (L.add id e) where
  holds := h.addRecord_writable hs hid hfits
  grows := ⟨le_rfl, fun _ hj => hj.addRecord hid hs, fun _ _ hloc => hloc.add _ _⟩
  records := Log.add_grows
  bound := hbound

/-- A new file becomes the active one. -/
theorem rolled (h : fm.Holds L) (hbound : fm.activeFileId + 1 < 2 ^ 32) :
    fm.Advances L fm.rolled L where
  holds := h.rolled
  grows := ⟨Nat.le_succ _, fun _ hj => hj.rolled, fun _ _ hloc => hloc⟩
  records _ := ⟨[], (List.append_nil _).symm⟩
  bound := hbound

end FileManager.Advances

/-- A roll-over finds a file id that is left. -/
def Appending.Within (fm : FileManager) : Appending → Prop
  | .rollOver _ c => c.fileId = fm.activeFileId → fm.activeFileId + 1 < 2 ^ 32
  | _ => True

instance (fm : FileManager) : (a : Appending) → Decidable (a.Within fm)
  | .rollOver _ c =>
    inferInstanceAs (Decidable (c.fileId = fm.activeFileId → fm.activeFileId + 1 < 2 ^ 32))
  | .idle | .start _ | .allocate _ _ | .returned _ _ | .failed _ _ => .isTrue trivial

/-- One section of `Append`. -/
theorem Appending.advances (h : fm.Holds L) (hbound : fm.activeFileId < 2 ^ 32)
    (hok : a.Ok fm L) (hwithin : a.Within fm) (hnext : a.next fm = some (a', fm')) :
    ∃ L', fm.Advances L fm' L' ∧ a'.Ok fm' L' := by
  cases a with
  | idle => cases hnext
  | start e =>
    obtain ⟨rfl, rfl⟩ := Prod.mk.inj (Option.some_inj.mp hnext)
    rw [h.capture_eq]
    exact ⟨L, .refl h hbound, hok, _, rfl, h.writable⟩
  | allocate e c =>
    obtain ⟨hs, id, rfl, hid⟩ := hok
    have hle : (fm.dataFiles id).writeIndex ≤ kMaxFileBytes := hid.write ▸ (h.files id).fits
    simp only [Appending.next, FileManager.allocatePack_eq hs hle, hid.write] at hnext
    split_ifs at hnext with hfits
    · obtain ⟨rfl, rfl⟩ := Prod.mk.inj (Option.some_inj.mp hnext)
      exact ⟨_, .addRecord h hbound hs hid hfits, hid.le_active, located_endOf L id e⟩
    · obtain ⟨rfl, rfl⟩ := Prod.mk.inj (Option.some_inj.mp hnext)
      -- The record fits at the end of the captured file, or the file is full.
      exact ⟨L, .refl h hbound, hs, id, rfl, hid⟩
  | rollOver e c =>
    obtain ⟨hs, id, rfl, hid⟩ := hok
    rcases hid.le_active.eq_or_lt with rfl | hlt
    · -- The captured file is still the active one.
      have hroll := h.rollOver_capture (hwithin rfl)
      rw [h.capture_eq] at hroll
      simp only [Appending.next, hroll] at hnext
      obtain ⟨rfl, rfl⟩ := Prod.mk.inj (Option.some_inj.mp hnext)
      exact ⟨L, .rolled h (hwithin rfl), hs⟩
    · -- Another call has rolled over in between.
      simp only [Appending.next, FileManager.rollOver, ne_eq, hlt.ne, not_false_eq_true,
        if_true] at hnext
      obtain ⟨rfl, rfl⟩ := Prod.mk.inj (Option.some_inj.mp hnext)
      exact ⟨L, .refl h hbound, hs⟩
  | returned e loc => cases hnext
  | failed e status => cases hnext

omit [Platform] in
/-- `AcquireDataFile` touches the cache of open files at most. -/
theorem Opening.next_eq {o o' : Opening} (h : o.next id fm = some (o', fm')) :
    ∃ openFiles, fm' = { fm with openFiles } := by
  cases o with
  | lookup =>
    simp only [Opening.next] at h
    split_ifs at h
    · exact ⟨fm.openFiles, (Prod.mk.inj (Option.some_inj.mp h)).2.symm⟩
    · split at h
      · exact ⟨_, (Prod.mk.inj (Option.some_inj.mp h)).2.symm⟩
      · exact ⟨_, (Prod.mk.inj (Option.some_inj.mp h)).2.symm⟩
  | openPath =>
    simp only [Opening.next] at h
    split_ifs at h
    · exact ⟨fm.openFiles, (Prod.mk.inj (Option.some_inj.mp h)).2.symm⟩
    · exact ⟨fm.openFiles, (Prod.mk.inj (Option.some_inj.mp h)).2.symm⟩
  | put => exact ⟨_, (Prod.mk.inj (Option.some_inj.mp h)).2.symm⟩
  | opened => cases h
  | failed status => cases h

/-- The index leads to records of their keys. -/
def DBImpl.Pointed (db : DBImpl) (L : Log) : Prop :=
  ∀ key dir, db.find key = some dir →
    ∃ e, Located L dir.loc e ∧ e.key = key ∧ dir.entry_size = e.size

namespace Worker

/-- The run stands in front of a block that is none of those that make up an `Append`. -/
def Resting : Compaction → Prop
  | .mark _ | .scan _ _ | .check _ _ _ _ | .finish _ => True
  | _ => False

variable (opt) in
/-- What is known about a thread, wherever it stands. -/
def Ok (fm : FileManager) (L : Log) (buffer : ReadBuffer) : Worker → Prop
  | .idle | .opening _ _ => True
  | .put w a => a.Ok fm L ∧ a.entry = some (DBImpl.entryOf opt w)
  | .compact c => c.Carries L buffer ∧ Resting c
  | .copy id it next a =>
    a.Ok fm L ∧ a.entry = some next ∧ ∃ offset, Compaction.Reads L buffer id it next offset

variable {th th' : Worker} {buffer buffer' : ReadBuffer} {db db' : DBImpl}

/-- A thread stands where it stood while the rest of the system goes on. -/
theorem Ok.advances (h : th.Ok opt fm L buffer) (ha : fm.Advances L fm' L') :
    th.Ok opt fm' L' buffer := by
  cases th with
  | idle => trivial
  | opening id o => trivial
  | put w a => exact ⟨h.1.grows ha.grows, h.2⟩
  | compact c => exact ⟨h.1.grows ha.records, h.2⟩
  | copy id it next a =>
    obtain ⟨hok, hentry, offset, hreads⟩ := h
    exact ⟨hok.grows ha.grows, hentry, offset, hreads.grows (ha.records id)⟩

/-- What a section of a thread does. -/
structure Takes (opt : Options) (db : DBImpl) (L : Log) (th' : Worker) (buffer' : ReadBuffer)
    (db' : DBImpl) (L' : Log) : Prop where
  advances : db.fileManager.Advances L db'.fileManager L'
  pointed : db'.Pointed L'
  ok : th'.Ok opt db'.fileManager L' buffer'

variable (hbound : db.fileManager.activeFileId < 2 ^ 32) (hpointed : db.Pointed L)

include hbound hpointed

/-- A section that leaves the files as they are. -/
theorem Takes.same (hfind : ∀ key, db'.find key = db.find key)
    (hholds' : db'.fileManager.Holds L)
    (hdata : ∀ j, (db'.fileManager.dataFiles j).writeIndex =
      (db.fileManager.dataFiles j).writeIndex)
    (hactive : db'.fileManager.activeFileId = db.fileManager.activeFileId)
    (hok : th'.Ok opt db'.fileManager L buffer') : Takes opt db L th' buffer' db' L where
  advances := .same hholds' (hactive ▸ hbound) hdata hactive
  pointed key dir hdir := hpointed key dir (hfind key ▸ hdir)
  ok := hok

variable (hholds : db.fileManager.Holds L)

include hholds

/-- A section of `Append`. -/
theorem Takes.append {a a' : Appending} (hok : a.Ok db.fileManager L)
    (hwithin : a.Within db.fileManager) (hnext : a.next db.fileManager = some (a', fm))
    (hth : ∀ L', db.fileManager.Advances L fm L' → a'.Ok fm L' → th'.Ok opt fm L' buffer') :
    ∃ L', Takes opt db L th' buffer' { db with fileManager := fm } L' := by
  obtain ⟨L', hadvances, hok'⟩ := Appending.advances hholds hbound hok hwithin hnext
  refine ⟨L', hadvances, fun key dir hdir => ?_, hth L' hadvances hok'⟩
  obtain ⟨e, hloc, he⟩ := hpointed key dir hdir
  exact ⟨e, hadvances.grows.located _ _ hloc, he⟩

/-- A section of `AcquireDataFile`. -/
theorem Takes.opening {o o' : Opening} (hnext : o.next id db.fileManager = some (o', fm))
    (hok : ∀ fm, th'.Ok opt fm L buffer') :
    Takes opt db L th' buffer' { db with fileManager := fm } L := by
  obtain ⟨openFiles, rfl⟩ := Opening.next_eq hnext
  exact .same hbound hpointed (fun _ => rfl) (hholds.openFiles openFiles) (fun _ => rfl) rfl
    (hok _)

/-- The index update of `HandlePut`. -/
theorem Takes.updateIndex {w : Write} {loc : Location}
    (hloc : Located L loc (DBImpl.entryOf opt w)) :
    Takes opt db L .idle buffer (DBImpl.updateIndex opt w loc db).2 L where
  advances := by
    rw [DBImpl.updateIndex_fileManager]
    exact .refl hholds hbound
  pointed key dir hdir := by
    rw [DBImpl.find_updateIndex] at hdir
    split_ifs at hdir with hkey hvalue
    · obtain rfl := Option.some_inj.mp hdir
      exact ⟨_, hloc, hkey.symm, ((hholds.files loc.id).storable _ hloc.mem).sizeOf_eq⟩
    · exact hpointed key dir hdir
  ok := trivial

/-- The index update of `Compact(id)`. -/
theorem Takes.compactInstall {it : RecordIterator} {next : Entry} {loc : Location} {offset : ℕ}
    (hreads : Compaction.Reads L buffer id it next offset) (hloc : Located L loc next) :
    Takes opt db L (.compact (.scan id it)) buffer (DBImpl.compactInstall next loc db) L := by
  have hfm := DBImpl.compactInstall_fileManager next loc db
  refine ⟨?_, fun key dir hdir => ?_, ⟨hreads.scan, trivial⟩⟩
  · rw [hfm]
    exact .refl hholds hbound
  · rw [DBImpl.find_compactInstall] at hdir
    split_ifs at hdir with hcond
    · obtain rfl := Option.some_inj.mp hdir
      exact ⟨next, hloc, hcond.1.symm, ((hholds.files loc.id).storable _ hloc.mem).sizeOf_eq⟩
    · exact hpointed key dir hdir

/-- A block of `Compact(id)` that is not part of an `Append`. -/
theorem Takes.compactStep {c c' : Compaction} (hcarries : c.Carries L buffer) (hresting : Resting c)
    (hstep : DBImpl.compactStep .sound c buffer db = some (c', buffer', db')) :
    Takes opt db L (ofCompaction c') buffer' db' L := by
  cases c with
  | mark id =>
    simp only [DBImpl.compactStep, Option.some.injEq, Prod.mk.injEq] at hstep
    obtain ⟨rfl, rfl, rfl⟩ := hstep
    exact .same hbound hpointed (fun _ => rfl) hholds (fun _ => rfl) rfl
      ⟨⟨[], L id, rfl, RecordIterator.ready_create buffer⟩, trivial⟩
  | scan id it =>
    simp only [DBImpl.compactStep, Option.some.injEq, Prod.mk.injEq] at hstep
    obtain ⟨rfl, rfl, rfl⟩ := hstep
    have hcarries' := (hholds.files id).compactScan_carries hcarries
    -- The next record, or the end of the file.
    have hth : (ofCompaction (db.compactScan id it buffer).1).Ok opt db.fileManager L
        (db.compactScan id it buffer).2 := by
      rcases DBImpl.compactScan_cases id it buffer db with hc | ⟨e, it', -, hc | ⟨o, hc⟩⟩
      · rw [hc]
        exact ⟨trivial, trivial⟩
      · rw [hc] at hcarries' ⊢
        exact ⟨hcarries', trivial⟩
      · rw [hc] at hcarries' ⊢
        exact ⟨hcarries', trivial⟩
    exact .same hbound hpointed (fun _ => rfl) hholds (fun _ => rfl) rfl hth
  | check id it offset next =>
    simp only [DBImpl.compactStep, Option.some.injEq, Prod.mk.injEq] at hstep
    obtain ⟨rfl, rfl, rfl⟩ := hstep
    have hreads : Compaction.Reads L buffer id it next offset := hcarries
    rcases DBImpl.compactCheck_cases id it offset next db with hc | ⟨-, -, -, hc⟩
    · rw [hc]
      -- The record is not live any more, and the scan goes on.
      exact .same hbound hpointed (fun _ => rfl) hholds (fun _ => rfl) rfl ⟨hreads.scan, trivial⟩
    · -- It is live, so the copy is appended.
      have hs := (hholds.files id).storable next hreads.located.mem
      rw [hc]
      exact .same hbound hpointed (fun _ => rfl) hholds (fun _ => rfl) rfl
        ⟨hs, rfl, offset, hreads⟩
  | finish id =>
    simp only [DBImpl.compactStep, Option.some.injEq, Prod.mk.injEq] at hstep
    obtain ⟨rfl, rfl, rfl⟩ := hstep
    exact .same hbound hpointed (fun _ => rfl) (hholds.removeFile id)
      (fun _ => FileManager.removeFile_data.2) FileManager.removeFile_activeFileId trivial
  | _ => exact hresting.elim

omit hbound hpointed hholds in
theorem next_put {w : Write} {a : Appending} (h : ∀ e loc, a ≠ .returned e loc) :
    (put w a).next opt buffer db = (a.next db.fileManager).map fun (a, fileManager) =>
      (.put w a, buffer, { db with fileManager }) := by
  cases a with
  | returned e loc => exact absurd rfl (h e loc)
  | _ => rfl

omit hbound hpointed hholds in
theorem next_copy {it : RecordIterator} {next : Entry} {a : Appending}
    (h : ∀ e loc, a ≠ .returned e loc) :
    (copy id it next a).next opt buffer db = (a.next db.fileManager).map fun (a, fileManager) =>
      (.copy id it next a, buffer, { db with fileManager }) := by
  cases a with
  | returned e loc => exact absurd rfl (h e loc)
  | _ => rfl

/-- A section of a thread. -/
theorem takes (hok : th.Ok opt db.fileManager L buffer)
    (hwithin : ∀ a, th.appending = some a → a.Within db.fileManager)
    (hnext : th.next opt buffer db = some (th', buffer', db')) :
    ∃ L', Takes opt db L th' buffer' db' L' := by
  cases th with
  | idle => cases hnext
  | put w a =>
    obtain ⟨hok, hentry⟩ := hok
    by_cases hdone : ∃ e loc, a = .returned e loc
    · -- The write returns from `Append` and updates the index.
      obtain ⟨e, loc, rfl⟩ := hdone
      simp only [next, Option.some.injEq, Prod.mk.injEq] at hnext
      obtain ⟨rfl, rfl, rfl⟩ := hnext
      obtain rfl : e = DBImpl.entryOf opt w := Option.some_inj.mp hentry
      exact ⟨L, .updateIndex hbound hpointed hholds hok.2⟩
    · rw [next_put fun e loc ha => hdone ⟨e, loc, ha⟩] at hnext
      -- One section of `Append`.
      obtain ⟨⟨a', fm⟩, ha, heq⟩ := Option.map_eq_some_iff.mp hnext
      simp only [Prod.mk.injEq] at heq
      obtain ⟨rfl, rfl, rfl⟩ := heq
      exact Takes.append hbound hpointed hholds hok (hwithin a rfl) ha
        fun L' _ hok' => ⟨hok', (Appending.entry_next ha).trans hentry⟩
  | opening id o =>
    obtain ⟨⟨o', fm⟩, ho, heq⟩ := Option.map_eq_some_iff.mp hnext
    simp only [Prod.mk.injEq] at heq
    obtain ⟨rfl, rfl, rfl⟩ := heq
    refine ⟨L, .opening hbound hpointed hholds ho fun fm => ?_⟩
    cases o' with
    | opened => exact ⟨trivial, trivial⟩
    | _ => trivial
  | compact c =>
    obtain ⟨⟨c', b, d⟩, hstep, heq⟩ := Option.map_eq_some_iff.mp hnext
    simp only [Prod.mk.injEq] at heq
    obtain ⟨rfl, rfl, rfl⟩ := heq
    exact ⟨L, .compactStep hbound hpointed hholds hok.1 hok.2 hstep⟩
  | copy id it next a =>
    obtain ⟨hok, hentry, offset, hreads⟩ := hok
    by_cases hdone : ∃ e loc, a = .returned e loc
    · -- The copy is appended, and `compactInstall` moves the index to it.
      obtain ⟨e, loc, rfl⟩ := hdone
      simp only [Worker.next, Option.some.injEq, Prod.mk.injEq] at hnext
      obtain ⟨rfl, rfl, rfl⟩ := hnext
      obtain rfl : e = next := Option.some_inj.mp hentry
      exact ⟨L, .compactInstall hbound hpointed hholds hreads hok.2⟩
    · rw [next_copy fun e loc ha => hdone ⟨e, loc, ha⟩] at hnext
      -- One section of `Append`.
      obtain ⟨⟨a', fm⟩, ha, heq⟩ := Option.map_eq_some_iff.mp hnext
      simp only [Prod.mk.injEq] at heq
      obtain ⟨rfl, rfl, rfl⟩ := heq
      exact Takes.append hbound hpointed hholds hok (hwithin a rfl) ha
        fun L' hadvances hok' => ⟨hok', (Appending.entry_next ha).trans hentry, offset,
          hreads.grows (hadvances.records id)⟩

end Worker

/-- The databases differ in their caches at most. -/
def DBImpl.Recached (db db' : DBImpl) : Prop :=
  ∃ readCache openFiles,
    db' = { db with readCache, fileManager := { db.fileManager with openFiles } }

omit [Platform] in
theorem DBImpl.Recached.refl (db : DBImpl) : db.Recached db :=
  ⟨db.readCache, db.fileManager.openFiles, rfl⟩

omit [Platform] in
theorem DBImpl.Recached.of_readCache (db : DBImpl) (readCache : SegmentCache Bytes) :
    db.Recached { db with readCache } :=
  ⟨readCache, db.fileManager.openFiles, rfl⟩

omit [Platform] in
/-- A section of `AcquireDataFile`. -/
theorem DBImpl.Recached.of_opening {db db' : DBImpl} {o : Opening} {g : Getting}
    {f : Opening → Getting}
    (h : ((o.next id db.fileManager).map fun (o, fileManager) =>
      (f o, { db with fileManager })) = some (g, db')) : db.Recached db' := by
  obtain ⟨⟨o', fm⟩, ho, heq⟩ := Option.map_eq_some_iff.mp h
  obtain ⟨openFiles, rfl⟩ := Opening.next_eq ho
  obtain ⟨-, rfl⟩ := Prod.mk.inj heq
  exact ⟨db.readCache, openFiles, rfl⟩

/-- `Get` touches the caches at most. -/
theorem Getting.recached {db db' : DBImpl} {g g' : Getting} (h : g.next opt db = some (g', db')) :
    db.Recached db' := by
  -- Most sections of `Get` leave the database alone.
  have hsame : ∀ {g₁ : Getting}, some (g₁, db) = some (g', db') → db.Recached db' := by
    intro g₁ heq
    obtain ⟨-, rfl⟩ := Prod.mk.inj (Option.some_inj.mp heq)
    exact .refl db
  cases g with
  | idle => cases h
  | lookup use_read_cache key =>
    simp only [Getting.next] at h
    split at h
    · exact hsame h
    · split_ifs at h
      · exact hsame h
      · exact hsame h
  | direct dir o =>
    -- Sections of the file cache.
    cases o <;> simp only [Getting.next] at h
    case opened => exact hsame h
    case failed => exact hsame h
    all_goals exact .of_opening h
  | block ctx i file =>
    by_cases hdone : ctx.end_ ≤ ReadCache.blockOffset i
    · -- `Build` only decodes.
      simp only [Getting.next, if_pos hdone] at h
      exact hsame h
    · simp only [Getting.next, if_neg hdone] at h
      split at h
      · obtain ⟨-, rfl⟩ := Prod.mk.inj (Option.some_inj.mp h)
        exact .of_readCache db _
      · obtain ⟨-, rfl⟩ := Prod.mk.inj (Option.some_inj.mp h)
        exact .of_readCache db _
  | fill ctx i file o =>
    cases o <;> simp only [Getting.next, Getting.fillBlock] at h
    case opened =>
      split at h
      · obtain ⟨-, rfl⟩ := Prod.mk.inj (Option.some_inj.mp h)
        exact .of_readCache db _
      · exact hsame h
    case failed => exact hsame h
    all_goals exact .of_opening h
  | returned r => cases h

/-! ### The process -/

namespace Process

variable {s s' : Process} {x : Action} {t : ℕ}

variable (opt) in
/-- Keys and stored values fit their header, and a roll-over finds a file id that is left. -/
def Within (s : Process) : Action → Prop
  | .write _ w => w.Representable opt
  | .next t =>
    match (s.threads t).appending with
    | some a => a.Within s.db.fileManager
    | none => True
  | _ => True

instance (s : Process) : (x : Action) → Decidable (s.Within opt x)
  | .write _ w => inferInstanceAs (Decidable (w.Representable opt))
  | .next t =>
    match h : (s.threads t).appending with
    | some a => decidable_of_iff (a.Within s.db.fileManager) (by simp only [Within, h])
    | none => .isTrue (by simp only [Within, h])
  | .compact _ _ | .task _ | .call _ _ | .get => .isTrue trivial

/-- The data files hold the records of the log, the index leads to records of their keys, and
every thread knows where it stands. -/
structure Inv (opt : Options) (s : Process) (L : Log) : Prop where
  holds : s.db.fileManager.Holds L
  bound : s.db.fileManager.activeFileId < 2 ^ 32
  pointed : s.db.Pointed L
  threads : ∀ t, (s.threads t).Ok opt s.db.fileManager L (s.buffers t)

/-- Only `Get` goes on with its call. -/
theorem get_eq_of_step (hget : x ≠ .get) (hcall : ∀ use_read_cache key, x ≠ .call use_read_cache key)
    (hstep : step opt s x = some s') : s'.get = s.get := by
  cases x with
  | write t w =>
    simp only [step] at hstep
    split at hstep
    · obtain rfl := Option.some_inj.mp hstep
      rfl
    · obtain rfl := Option.some_inj.mp hstep
      rfl
    · cases hstep
  | compact t id =>
    simp only [step] at hstep
    split at hstep
    · split_ifs at hstep
      · obtain rfl := Option.some_inj.mp hstep
        rfl
      · obtain rfl := Option.some_inj.mp hstep
        rfl
    · cases hstep
  | next t =>
    obtain ⟨_, -, rfl⟩ := Option.map_eq_some_iff.mp hstep
    rfl
  | task i =>
    obtain ⟨_, -, rfl⟩ := Option.map_eq_some_iff.mp hstep
    rfl
  | call use_read_cache key => exact absurd rfl (hcall use_read_cache key)
  | get => exact absurd rfl hget

theorem get_of_call {use_read_cache : Bool} {key : Key}
    (hstep : step opt s (.call use_read_cache key) = some s') :
    s'.get = .lookup use_read_cache key := by
  simp only [step] at hstep
  split at hstep
  · obtain rfl := Option.some_inj.mp hstep
    rfl
  · obtain rfl := Option.some_inj.mp hstep
    rfl
  · cases hstep

namespace Inv

/-- The threads when one of them goes on. -/
theorem threads_update {th : Worker} {buffer : ReadBuffer} (h : Inv opt s L)
    (ha : s.db.fileManager.Advances L fm' L') (hth : th.Ok opt fm' L' buffer) (u : ℕ) :
    (Function.update s.threads t th u).Ok opt fm' L' (Function.update s.buffers t buffer u) := by
  by_cases hu : u = t
  · rw [hu, Function.update_self, Function.update_self]
    exact hth
  · rw [Function.update_of_ne hu, Function.update_of_ne hu]
    exact (h.threads u).advances ha

/-- A call that has not begun its first section. -/
theorem threads_called {th : Worker} (h : Inv opt s L)
    (hth : th.Ok opt s.db.fileManager L (s.buffers t)) (u : ℕ) :
    (Function.update s.threads t th u).Ok opt s.db.fileManager L (s.buffers u) := by
  by_cases hu : u = t
  · rw [hu, Function.update_self]
    exact hth
  · rw [Function.update_of_ne hu]
    exact h.threads u

/-- One step of the process. -/
theorem step (h : Inv opt s L) (hw : s.Within opt x) (hstep : Process.step opt s x = some s') :
    ∃ L', Inv opt s' L' ∧ s.db.fileManager.Advances L s'.db.fileManager L' := by
  have hrefl : s.db.fileManager.Advances L s.db.fileManager L := .refl h.holds h.bound
  cases x with
  | write t w =>
    simp only [Process.step] at hstep
    split at hstep
    · next e hidle hprepare =>
      obtain rfl := Option.some_inj.mp hstep
      obtain rfl : DBImpl.entryOf opt w = e := by
        unfold DBImpl.prepare at hprepare
        split_ifs at hprepare
        exact Except.ok.inj hprepare
      refine ⟨L, ⟨h.holds, h.bound, h.pointed, h.threads_called ?_⟩, hrefl⟩
      exact ⟨DBImpl.storable_of_prepare hw hprepare, rfl⟩
    · obtain rfl := Option.some_inj.mp hstep
      exact ⟨L, h, hrefl⟩
    · cases hstep
  | compact t id =>
    simp only [Process.step] at hstep
    split at hstep
    · split_ifs at hstep
      · obtain rfl := Option.some_inj.mp hstep
        exact ⟨L, h, hrefl⟩
      · obtain rfl := Option.some_inj.mp hstep
        exact ⟨L, ⟨h.holds, h.bound, h.pointed, h.threads_called trivial⟩, hrefl⟩
    · cases hstep
  | next t =>
    obtain ⟨⟨th, buffer, db⟩, hnext, rfl⟩ := Option.map_eq_some_iff.mp hstep
    -- The guard of the process is that of the call.
    have hwithin : ∀ a, (s.threads t).appending = some a → a.Within s.db.fileManager := by
      intro a ha
      simp only [Within, ha] at hw
      exact hw
    obtain ⟨L', ha, hpointed, hok⟩ :=
      Worker.takes h.bound h.pointed h.holds (h.threads t) hwithin hnext
    exact ⟨L', ⟨ha.holds, ha.bound, hpointed, h.threads_update ha hok⟩, ha⟩
  | task i =>
    obtain ⟨fm, hrun, rfl⟩ := Option.map_eq_some_iff.mp hstep
    -- A task changes index files and queue, which the invariant does not mention.
    have hholds := h.holds.runTask hrun
    obtain ⟨tasks, indexFiles, rfl⟩ := FileManager.runTask_eq hrun
    have ha : s.db.fileManager.Advances L { s.db.fileManager with tasks, indexFiles } L :=
      .same hholds h.bound (fun _ => rfl) rfl
    exact ⟨L, ⟨ha.holds, ha.bound, h.pointed, fun u => (h.threads u).advances ha⟩, ha⟩
  | call use_read_cache key =>
    simp only [Process.step] at hstep
    split at hstep
    · obtain rfl := Option.some_inj.mp hstep
      exact ⟨L, ⟨h.holds, h.bound, h.pointed, h.threads⟩, hrefl⟩
    · obtain rfl := Option.some_inj.mp hstep
      exact ⟨L, ⟨h.holds, h.bound, h.pointed, h.threads⟩, hrefl⟩
    · cases hstep
  | get =>
    obtain ⟨⟨g, db⟩, hnext, rfl⟩ := Option.map_eq_some_iff.mp hstep
    -- `Get` changes the two caches and nothing else.
    obtain ⟨readCache, openFiles, rfl⟩ := Getting.recached hnext
    have ha : s.db.fileManager.Advances L { s.db.fileManager with openFiles } L :=
      .same (h.holds.openFiles openFiles) h.bound (fun _ => rfl) rfl
    exact ⟨L, ⟨ha.holds, ha.bound, h.pointed, fun u => (h.threads u).advances ha⟩, ha⟩

end Inv

end Process

end

end PedroDB
