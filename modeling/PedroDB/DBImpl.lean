import Mathlib.Data.List.AList
import PedroDB.FileManager
import PedroDB.Iterator

/-!
# The database

An in-memory index maps each key to the location of its live record. Writes append a
record and then update the index; compaction copies the live records of a file to the
active file and removes the file; recovery replays the registered files.

Every section of the source that runs under `mu_` is a definition of its own, so that
the same definitions make up the calls of one client and the interleavings of many.

## Main definitions

* `DBImpl` — the state
* `handlePut` — `HandlePut`, made of `prepare`, `FileManager.append` and `updateIndex`
* `handleGet` — `HandleGet`, directly or through the read cache
* `Compaction`, `compactStep` — `Compact(file_id_t)`, one atomic block at a time
* `recoverEntry`, `recoverFile`, `recovery`, `openDb` — the recovery and `Init`
* `iterate` — the entries of `GetIterator`
-/

namespace PedroDB

inductive CompactState
  | kNop | kQueued | kScheduling | kCompacting
  deriving DecidableEq, Repr

structure FileState where
  free_bytes : ℕ
  compact_state : CompactState
  deriving DecidableEq, Repr

/-- A default-constructed `FileState`. -/
def FileState.default : FileState := { free_bytes := 0, compact_state := .kNop }

/-- `DBImpl`. A file without an entry in `file_states_` has the default state, which is
what `operator[]` would make of it. -/
structure DBImpl where
  maxFile : ℕ
  indices : AList fun _ : Key => Dir
  fileManager : FileManager
  readonly : Bool
  readCache : SegmentCache Bytes
  compactTasks : List ℕ
  fileStates : ℕ → FileState

/-- What a write call was given. -/
structure Write where
  key : Key
  /-- Empty for `Delete`. -/
  value : Bytes
  deriving DecidableEq, Repr

/-- `Put(key, value)` -/
def Write.put (key : Key) (value : Bytes) : Write := { key, value }

/-- `Delete(key)`, a put of nothing. -/
def Write.delete (key : Key) : Write := { key, value := [] }

/-- What a `Get` reports: its status, and the value if it assigned one. -/
structure Reply where
  status : Status
  value : Option Bytes
  deriving DecidableEq, Repr

namespace DBImpl

variable [Platform] (opt : Options)

/-- The index entry of a key. -/
def find (db : DBImpl) (key : Key) : Option Dir := db.indices.lookup key

def updateUnused (loc : Location) (unused : ℕ) (db : DBImpl) : DBImpl :=
  let hint := db.fileStates loc.id
  let hint := { hint with free_bytes := hint.free_bytes + unused }
  -- A file is queued at most once before it is compacted.
  if opt.threshold_bytes ≤ hint.free_bytes ∧ hint.compact_state = .kNop then
    { db with
      fileStates := Function.update db.fileStates loc.id { hint with compact_state := .kQueued }
      compactTasks := db.compactTasks ++ [loc.id] }
  else { db with fileStates := Function.update db.fileStates loc.id hint }

/-! ### Writes -/

/-- The value as it is stored. -/
def stored (value : Bytes) : Bytes :=
  if opt.compress_value then Platform.compress value else value

/-- The record that `HandlePut` builds. -/
def entryOf (w : Write) : Entry :=
  { checksum := Entry.checksumOf w.key (stored opt w.value)
    type := if w.value = [] then .kDelete else .kSet
    key := w.key
    value := stored opt w.value
    timestamp := 0 }

/-- `HandlePut` up to `Append`: the record, or the status with which it is refused. -/
def prepare (w : Write) (db : DBImpl) : Except Status Entry :=
  if db.readonly then .error .kNotSupported
  else if kMaxFileBytes < (entryOf opt w).sizeOf then .error .kNotSupported
  else .ok (entryOf opt w)

/-- The section of `HandlePut` under `mu_`, once the record is at `loc`. -/
def updateIndex (w : Write) (loc : Location) (db : DBImpl) : Status × DBImpl :=
  let dir : Dir := { entry_size := (entryOf opt w).sizeOf, loc }
  let db := { db with maxFile := max db.maxFile loc.id }
  match db.find w.key with
  | none =>
    -- The tombstone itself is unused from the start.
    if w.value = [] then (.kNotFound, updateUnused opt loc dir.entry_size db)
    else (.kOk, { db with indices := db.indices.insert w.key dir })
  | some old =>
    -- The old record is unused, whatever follows it.
    let db := updateUnused opt old.loc old.entry_size db
    let db := { db with indices := db.indices.erase w.key }
    (.kOk, if w.value = [] then db else { db with indices := db.indices.insert w.key dir })

/-- `HandlePut`; `none` when `Append` does not return. -/
def handlePut (opens : OpenData) (w : Write) (db : DBImpl) : Option (Status × DBImpl) :=
  match prepare opt w db with
  | .error status => some (status, db)
  | .ok e =>
    match db.fileManager.append opens e with
    | none => none
    | some (.kOk, loc, fileManager) => some (updateIndex opt w loc { db with fileManager })
    | some (status, _, fileManager) => some (status, { db with fileManager })

/-! ### Reads -/

/-- `Uncompress(value, dst)` or `dst->assign(value)`. -/
def userValue (value : Bytes) : Option Bytes :=
  if opt.compress_value then Platform.uncompress value else some value

/-- Whether `HandleGet` bypasses the read cache. -/
def directlyRead (use_read_cache : Bool) (dir : Dir) (db : DBImpl) : Bool :=
  !use_read_cache || !opt.cache_enable || dir.loc.id = db.maxFile

/-- `file_opener_` -/
def fileOpener (fm : FileManager) (id : ℕ) : Status × Option ReadableFile × FileManager :=
  match fm.acquireDataFile id with
  | (.kOk, fm) => (.kOk, some (fm.readable id), fm)
  | (status, fm) => (status, none, fm)

/-- The end of `HandleGet`, on the decoded record. -/
def replyOf (e : Entry) : Reply :=
  if e.validate then { status := .kOk, value := userValue opt e.value }
  else { status := .kCorruption, value := none }

/-- `HandleGet` without the read cache. -/
def readDirectly (dir : Dir) (db : DBImpl) (buffer : ReadBuffer) : Reply × DBImpl × ReadBuffer :=
  match db.fileManager.acquireDataFile dir.loc.id with
  | (.kOk, fileManager) =>
    let db := { db with fileManager }
    -- `Seek`, and at most one call of `Valid()`.
    let (it, _) := (RecordIterator.create kMaxFileBytes).seek dir.loc.offset
    match it.valid (fileManager.dataFiles dir.loc.id).data ReadBuffer.empty with
    | (false, _, buffer) => ({ status := .kCorruption, value := none }, db, buffer)
    | (true, it, buffer) => (replyOf opt it.next.1, db, buffer)
  | (status, fileManager) => ({ status, value := none }, { db with fileManager }, buffer)

/-- `HandleGet` through the read cache. -/
def readCached (dir : Dir) (db : DBImpl) : Option (Reply × DBImpl) :=
  (ReadCache.get fileOpener (ReadCache.Context.create dir.loc dir.entry_size) db.readCache
      db.fileManager).map fun (status, entry, readCache, fileManager) =>
    let db := { db with readCache, fileManager }
    match status, entry with
    | .kOk, some e => (replyOf opt e, db)
    | status, _ => ({ status, value := none }, db)

/-- `HandleGet`, on a thread whose iterators share `buffer`; `none` when the read cache
does not return. -/
def handleGet (use_read_cache : Bool) (key : Key) (db : DBImpl) (buffer : ReadBuffer) :
    Option (Reply × DBImpl × ReadBuffer) :=
  match db.find key with
  | none => some ({ status := .kNotFound, value := none }, db, buffer)
  | some dir =>
    if directlyRead opt use_read_cache dir db then some (readDirectly opt dir db buffer)
    else (readCached opt dir db).map fun (reply, db) => (reply, db, buffer)

/-! ### Compaction -/

/-- `PollCompactTask` -/
def pollCompactTask (db : DBImpl) : List ℕ × DBImpl :=
  (db.compactTasks,
    { db with
      compactTasks := []
      fileStates := fun id =>
        if id ∈ db.compactTasks then { db.fileStates id with compact_state := .kScheduling }
        else db.fileStates id })

end DBImpl

/-- Where a run of `Compact(id)` stands between two atomic blocks. -/
inductive Compaction
  /-- Not running. -/
  | idle
  /-- `Compact(id)` was called. -/
  | start (id : ℕ)
  /-- The file is open; in front of marking it. -/
  | mark (id : ℕ)
  /-- In front of `iter.Valid()`. -/
  | scan (id : ℕ) (it : RecordIterator)
  /-- `next` was read at `offset`; in front of the liveness check. -/
  | check (id : ℕ) (it : RecordIterator) (offset : ℕ) (next : Entry)
  /-- `next` is live; in front of `Append`. -/
  | append (id : ℕ) (it : RecordIterator) (next : Entry)
  /-- The copy of `next` is at `loc`; in front of the index update. -/
  | install (id : ℕ) (it : RecordIterator) (next : Entry) (loc : Location)
  /-- The scan is over; in front of `RemoveFile`. -/
  | finish (id : ℕ)
  deriving DecidableEq

namespace DBImpl

variable [Platform] (opt : Options)

/-- Open the file. -/
def compactStart (id : ℕ) (db : DBImpl) : Compaction × DBImpl :=
  if db.readonly then (.idle, db)
  else
    match db.fileManager.acquireDataFile id with
    | (.kOk, fileManager) => (.mark id, { db with fileManager })
    | (_, fileManager) => (.idle, { db with fileManager })

/-- Mark the file as being compacted, under `mu_`. -/
def compactMark (id : ℕ) (db : DBImpl) : DBImpl :=
  let hints := { db.fileStates id with compact_state := .kCompacting }
  { db with fileStates := Function.update db.fileStates id hints }

/-- One round of the scan: `Valid`, `Next`, and the test for `kSet`. -/
def compactScan (id : ℕ) (it : RecordIterator) (buffer : ReadBuffer) (db : DBImpl) :
    Compaction × ReadBuffer :=
  match it.valid (db.fileManager.dataFiles id).data buffer with
  | (false, _, buffer) => (.finish id, buffer)
  | (true, it, buffer) =>
    (if it.next.1.type ≠ .kSet then .scan id it.next.2
      else .check id it.next.2 it.getOffset it.next.1, buffer)

/-- The liveness check under `mu_`. -/
def compactCheck (id : ℕ) (it : RecordIterator) (offset : ℕ) (next : Entry) (db : DBImpl) :
    Compaction :=
  match db.find next.key with
  | none => .scan id it
  -- A record that the index does not lead to is dead.
  | some dir => if dir.loc ≠ ⟨id, offset⟩ then .scan id it else .append id it next

/-- The index update under `mu_`. -/
def compactInstall (next : Entry) (loc : Location) (db : DBImpl) : DBImpl :=
  match db.find next.key with
  | none => db
  | some dir =>
    if dir.loc < loc then
      { db with indices := db.indices.insert next.key { entry_size := next.sizeOf, loc } }
    else
      -- The key has moved on meanwhile. The copy is counted, and no task is queued.
      let hint := db.fileStates loc.id
      let hint := { hint with free_bytes := hint.free_bytes + next.sizeOf }
      { db with fileStates := Function.update db.fileStates loc.id hint }

/-- Forget the state of the file and remove it, under `mu_`. -/
def compactFinish (id : ℕ) (db : DBImpl) : DBImpl :=
  { db with
    fileStates := Function.update db.fileStates id FileState.default
    fileManager := db.fileManager.removeFile id }

/-- The next atomic block of a run of `Compact(id)`; `none` when it is not running, or
when `Append` does not return. -/
def compactStep (opens : OpenData) (c : Compaction) (buffer : ReadBuffer) (db : DBImpl) :
    Option (Compaction × ReadBuffer × DBImpl) :=
  match c with
  | .idle => none
  | .start id => some ((compactStart id db).1, buffer, (compactStart id db).2)
  | .mark id => some (.scan id (RecordIterator.create kMaxFileBytes), buffer, compactMark id db)
  | .scan id it => some ((compactScan id it buffer db).1, (compactScan id it buffer db).2, db)
  | .check id it offset next => some (compactCheck id it offset next db, buffer, db)
  | .append id it next =>
    match db.fileManager.append opens next with
    | none => none
    | some (.kOk, loc, fileManager) => some (.install id it next loc, buffer, { db with fileManager })
    | some (_, _, fileManager) => some (.idle, buffer, { db with fileManager })
  | .install id it next loc => some (.scan id it, buffer, compactInstall next loc db)
  | .finish id => some (.idle, buffer, compactFinish id db)

/-! ### Recovery -/

/-- `Recovery(id, entry)`; `none` is the fatal exit. -/
def recoverEntry (id : ℕ) (db : DBImpl) (entry : IndexEntry) : Option DBImpl :=
  let loc : Location := ⟨id, entry.offset⟩
  let new : Dir := { entry_size := entry.len, loc }
  match entry.type with
  | .kSet =>
    match db.find entry.key with
    | none => some { db with indices := db.indices.insert entry.key new }
    | some dir =>
      -- An older record of a key that was replayed before.
      if loc < dir.loc then some (updateUnused opt loc entry.len db)
      -- Two entries at one location.
      else if dir.loc = loc then none
      else
        let db := updateUnused opt dir.loc dir.entry_size db
        some { db with indices := db.indices.insert entry.key new }
  | .kDelete =>
    -- A tombstone is unused at once.
    let db := updateUnused opt loc entry.len db
    match db.find entry.key with
    | none => some db
    | some dir =>
      if loc < dir.loc then some db
      else
        let db := updateUnused opt dir.loc dir.entry_size db
        some { db with indices := db.indices.erase entry.key }
  | _ => some db

/-- `Recovery(id)`: from the index file if there is one, else from the data file. -/
def recoverFile (id : ℕ) (s : DBImpl × ReadBuffer) : Option (Status × DBImpl × ReadBuffer) :=
  let (db, buffer) := s
  match db.fileManager.indexFiles id with
  | some bytes =>
    ((IndexEntry.unPackAll bytes).foldlM (recoverEntry opt id) db).map fun db =>
      (.kOk, db, buffer)
  | none =>
    match db.fileManager.acquireDataFile id with
    | (.kOk, fileManager) =>
      -- Without index file the records of the data file are listed.
      let (records, buffer) := RecordIterator.scan (fileManager.dataFiles id).data kMaxFileBytes
        (RecordIterator.create kMaxFileBytes) buffer
      let db := { db with fileManager }
      ((records.map fun r => IndexEntry.ofRecord r.1 r.2).foldlM (recoverEntry opt id) db).map
        fun db => (.kOk, { db with fileManager := db.fileManager.releaseDataFile id }, buffer)
    | (_, fileManager) => some (.kIOError, { db with fileManager }, buffer)

/-- The loop of `Recovery()` over the registered files. -/
def recoverFiles : List ℕ → DBImpl × ReadBuffer → Option (Status × DBImpl × ReadBuffer)
  | [], (db, buffer) => some (.kOk, db, buffer)
  | id :: ids, (db, buffer) =>
    match recoverFile opt id ({ db with maxFile := max db.maxFile id }, buffer) with
    | none => none
    | some (.kOk, s) => recoverFiles ids s
    | some (status, s) => some (status, s)

/-- `Recovery()` -/
def recovery (s : DBImpl × ReadBuffer) : Option (Status × DBImpl × ReadBuffer) :=
  recoverFiles opt s.1.fileManager.metadata.getFiles s

/-- The constructor, around a file manager. -/
def create (fileManager : FileManager) : DBImpl :=
  { maxFile := 0
    indices := ∅
    fileManager
    readonly := false
    readCache := ReadCache.create opt.segments opt.read_cache_bytes
    compactTasks := []
    fileStates := fun _ => FileState.default }

end DBImpl

/-- What is on disk when no process has the database open. -/
structure Disk where
  metadata : Bytes
  dataFiles : ℕ → Option Content
  indexFiles : ℕ → Option Bytes

/-- No file of the database exists. -/
def Disk.empty : Disk :=
  { metadata := [], dataFiles := fun _ => none, indexFiles := fun _ => none }

/-- A file found on disk, not yet mapped. -/
def DataFile.onDisk (content : Option Content) : DataFile :=
  match content with
  | none => DataFile.absent
  | some data => { data, writeIndex := 0, linked := true }

namespace FileManager

/-- What a process that stops leaves on disk. Written bytes are in the page cache of
the mapping, and unlinked files are gone. -/
def disk (fm : FileManager) : Disk :=
  { metadata := fm.metadata.file
    dataFiles := fun id => if (fm.dataFiles id).linked then some (fm.dataFiles id).data else none
    indexFiles := fm.indexFiles }

end FileManager

namespace DBImpl

variable [Platform] (opt : Options)

/-- `MetadataManager::Init` on what is on disk; `none` is the fatal exit. -/
def openMetadata (name : Bytes) (disk : Disk) : Option MetadataManager :=
  if disk.metadata = [] then some (MetadataManager.createDatabase name)
  else MetadataManager.recovery disk.metadata

/-- `DBImpl::Init` of a database of this name, on a thread whose iterators share
`buffer`; `none` is the fatal exit. -/
def openDb (opens : OpenData) (name : Bytes) (disk : Disk) (buffer : ReadBuffer) :
    Option (Status × DBImpl × ReadBuffer) :=
  match openMetadata name disk with
  | none => none
  | some metadata =>
    -- Every data file is on disk, and none is mapped yet.
    let fm := FileManager.create opt.max_open_files metadata
      (fun id => DataFile.onDisk (disk.dataFiles id)) disk.indexFiles
    match fm.init opens with
    | (.kOk, fm) => recovery opt (create opt fm, buffer)
    | (status, fm) => some (status, create opt fm, buffer)

/-! ### Iteration -/

/-- One round of the loop in `EntryIteratorImpl::Valid`, for the index entry `dir`. -/
def iterateStep (dir : Dir) (fm : FileManager) (buffer : ReadBuffer) :
    Option Entry × FileManager × ReadBuffer :=
  match fm.acquireDataFile dir.loc.id with
  | (.kOk, fm) =>
    match (RecordIterator.create kMaxFileBytes).valid (fm.dataFiles dir.loc.id).data buffer with
    | (false, _, buffer) => (none, fm, buffer)
    | (true, it, buffer) =>
      (if it.next.1.validate then some it.next.1 else none, fm, buffer)
  | (_, fm) => (none, fm, buffer)

/-- The entries that `while (it->Valid()) it->Next()` yields over a copy of the index
whose iteration meets the entries `dirs` in this order. -/
def iterateFrom : List Dir → FileManager → ReadBuffer → List Entry
  | [], _, _ => []
  | dir :: dirs, fm, buffer =>
    match iterateStep dir fm buffer with
    | (none, fm, buffer) => iterateFrom dirs fm buffer
    | (some e, fm, buffer) => e :: iterateFrom dirs fm buffer

/-- `GetIterator`, driven to its end. -/
def iterate (db : DBImpl) (buffer : ReadBuffer) : List Entry :=
  iterateFrom (db.indices.entries.map Sigma.snd) db.fileManager buffer

end DBImpl
end PedroDB
