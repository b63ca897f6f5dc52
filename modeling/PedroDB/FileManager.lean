import PedroDB.Cache.LRU
import PedroDB.Cache.ReadCache
import PedroDB.Format.Index
import PedroDB.Format.Record
import PedroDB.MetadataManager

/-!
# The file manager

The file manager appends records to the active data file and rolls over to a new one
when a record does not fit. Data files are memory-mapped, so the file on disk and the
mapping that appenders hold are one object; a removed file stays readable through it.

## Main definitions

* `DataFile`, `FileManager` — the state
* `FileManager.allocatePack`, `rollOver`, `append` — the atomic steps of `Append`, and
  `Append` itself
* `FileManager.createFile`, `createIndexFile`, `removeFile`, `acquireDataFile`, `init`
-/

namespace PedroDB

/-- A data file of `kMaxFileBytes` bytes, with the mapping it is written through. -/
structure DataFile where
  data : Content
  /-- `write_index_` of the mapping. -/
  writeIndex : ℕ
  /-- The path of the file exists. -/
  linked : Bool

def DataFile.absent : DataFile := { data := fun _ => 0, writeIndex := 0, linked := false }

/-- Background work handed to the executor. -/
inductive Task
  | syncFile (id : ℕ)
  | createIndexFile (id : ℕ)
  deriving DecidableEq, Repr

/-- `FileManager`, with the files it manages. An index log is named by the data file
it belongs to. -/
structure FileManager where
  metadata : MetadataManager
  /-- `open_files_` -/
  openFiles : LRUCache ℕ Unit
  /-- `active_index_log_`, unless null. -/
  activeIndexLog : Option ℕ
  /-- `active_data_file_`, unless null. -/
  activeDataFile : Option ℕ
  /-- `active_file_id_` -/
  activeFileId : ℕ
  dataFiles : ℕ → DataFile
  indexLogs : ℕ → Bytes
  indexFiles : ℕ → Option Bytes
  /-- What the executor has still to run. -/
  tasks : List Task

/-- What `Append` copies under the lock. -/
structure Capture where
  fileId : ℕ
  dataFile : ℕ
  indexLog : Option ℕ
  deriving DecidableEq, Repr

/-- How opening a data file for writing ends, by file id. -/
abbrev OpenData := ℕ → Status

/-- No open fails. -/
def OpenData.sound : OpenData := fun _ => .kOk

namespace FileManager

variable [Platform]

/-- `file->GetReadableBuffer()` -/
def readableBuffer (f : DataFile) : ReadBuffer :=
  { data := f.data, readIndex := 0, capacity := kMaxFileBytes }

/-- The records that the loop `while (entry.UnPack(&buffer))` of `CreateFile` finds. -/
def unPackAll (f : DataFile) : List Entry :=
  ReadBuffer.collect Entry.unPack kMaxFileBytes (readableBuffer f)

/-- The index log that `CreateFile` rebuilds for these records, and the offset where
its loop ends. -/
def rebuildLog : ℕ → List Entry → Bytes × ℕ
  | offset, [] => ([], offset)
  | offset, e :: es =>
    let (log, last) := rebuildLog (u32 (offset + e.sizeOf)) es
    ((IndexEntry.ofRecord offset e).pack ++ log, last)

/-- What `CreateFile` schedules for the file that was active, the index log moving to
the task. -/
def scheduleSeal (fm : FileManager) : FileManager :=
  match fm.activeDataFile with
  | none => fm
  | some _ =>
    { fm with
      -- The log moves to the task, whether or not the new file will open.
      activeIndexLog := none
      tasks := fm.tasks ++ Task.syncFile fm.activeFileId ::
        (match fm.activeIndexLog with
          | none => []
          | some _ => [Task.createIndexFile fm.activeFileId]) }

/-- The end of `CreateFile(id)`: open the file, rebuild its log, make it active. -/
def openActive (id : ℕ) (fm : FileManager) : FileManager :=
  -- Opening the file creates it if it is not there.
  let file := if (fm.dataFiles id).linked then fm.dataFiles id else DataFile.absent
  let (log, offset) := rebuildLog 0 (unPackAll file)
  { fm with
    metadata := (fm.metadata.createFile .sound id).2
    activeIndexLog := some id
    activeDataFile := some id
    activeFileId := id
    dataFiles := Function.update fm.dataFiles id
      { file with writeIndex := offset, linked := true }
    indexLogs := Function.update fm.indexLogs id log }

/-- `CreateFile(id)` -/
def createFile (opens : OpenData) (id : ℕ) (fm : FileManager) : Status × FileManager :=
  match opens id with
  | .kOk => (.kOk, openActive id fm.scheduleSeal)
  | status => (status, fm.scheduleSeal)

/-- The first critical section of `Append`. -/
def capture (fm : FileManager) : Capture :=
  { fileId := fm.activeFileId
    -- There is an active file from `Init` on.
    dataFile := fm.activeDataFile.getD 0
    indexLog := fm.activeIndexLog }

/-- The section of `Append` under the file lock: `Allocate`, `Pack` and the index log
entry, on the captured file. -/
def allocatePack (e : Entry) (c : Capture) (fm : FileManager) : Option (Location × FileManager) :=
  let file := fm.dataFiles c.dataFile
  let n := e.sizeOf
  -- `Allocate`: what is left of the file is too small.
  if sub64 kMaxFileBytes file.writeIndex < n then none
  else
    let offset := file.writeIndex
    let file :=
      { file with
        data := Padded.write file.data offset ((e.packInto n).getD [])
        writeIndex := offset + n }
    some ({ id := c.fileId, offset },
      { fm with
        dataFiles := Function.update fm.dataFiles c.dataFile file
        indexLogs :=
          match c.indexLog with
          | none => fm.indexLogs
          | some log => Function.update fm.indexLogs log
              (fm.indexLogs log ++ (IndexEntry.ofRecord offset e).pack) })

/-- The last critical section of a round of `Append`: roll over, unless another thread
did. -/
def rollOver (opens : OpenData) (c : Capture) (fm : FileManager) : Status × FileManager :=
  -- Another thread has made a new file since the capture.
  if c.fileId ≠ fm.activeFileId then (.kOk, fm)
  else createFile opens (u32 (c.fileId + 1)) fm

/-- `Append`, with its three sections one after another; `none` when it is still trying
after `fuel` rounds. -/
def appendLoop (opens : OpenData) (e : Entry) :
    ℕ → FileManager → Option (Status × Location × FileManager)
  | 0, _ => none
  | fuel + 1, fm =>
    match allocatePack e fm.capture fm with
    | some (loc, fm) => some (.kOk, loc, fm)
    | none =>
      match rollOver opens fm.capture fm with
      | (.kOk, fm') => appendLoop opens e fuel fm'
      | (status, fm') => some (status, ⟨0, 0⟩, fm')

/-- `Append`. After as many rounds as there are file ids it has tried every file. -/
def append (opens : OpenData) (e : Entry) (fm : FileManager) :
    Option (Status × Location × FileManager) :=
  appendLoop opens e (2 ^ 32 + 1) fm

/-- `ReleaseDataFile` -/
def releaseDataFile (id : ℕ) (fm : FileManager) : FileManager :=
  { fm with openFiles := (fm.openFiles.remove id).2 }

/-- `AcquireDataFile`. A reader holds the file by its id. -/
def acquireDataFile (id : ℕ) (fm : FileManager) : Status × FileManager :=
  -- The active file is held by the file manager itself.
  if id = fm.activeFileId then (.kOk, fm)
  else
    match fm.openFiles.get id with
    | (some (), openFiles) => (.kOk, { fm with openFiles })
    | (none, openFiles) =>
      let fm := { fm with openFiles }
      -- A file that was removed does not open.
      if (fm.dataFiles id).linked then (.kOk, { fm with openFiles := openFiles.put id () })
      else (.kIOError, fm)

/-- A file as its readers see it. -/
def readable (id : ℕ) (fm : FileManager) : ReadableFile :=
  { data := (fm.dataFiles id).data, size := kMaxFileBytes }

/-- `RemoveFile` -/
def removeFile (id : ℕ) (fm : FileManager) : FileManager :=
  let fm := fm.releaseDataFile id
  -- The file is unlinked only if its metadata entry is deleted.
  match fm.metadata.deleteFile .sound id with
  | (.kOk, metadata) =>
    { fm with
      metadata
      dataFiles := Function.update fm.dataFiles id { fm.dataFiles id with linked := false }
      indexFiles := Function.update fm.indexFiles id none }
  | (_, metadata) => { fm with metadata }

/-- `CreateIndexFile`, run by the executor. Opening creates an empty file if none is there, and
gives an empty file the length of the log. Mapping an empty log fails, and so does a file that is
there with another length; the task is then scheduled again. -/
def createIndexFile (id : ℕ) (fm : FileManager) : FileManager :=
  let log := fm.indexLogs id
  let file := (fm.indexFiles id).getD []
  if log = [] ∨ file ≠ [] ∧ file.length ≠ log.length then
    { fm with
      indexFiles := Function.update fm.indexFiles id (some file)
      tasks := fm.tasks ++ [Task.createIndexFile id] }
  else { fm with indexFiles := Function.update fm.indexFiles id (some log) }

/-- The executor runs the `i`-th scheduled task. -/
def runTask (i : ℕ) (fm : FileManager) : Option FileManager :=
  match fm.tasks[i]? with
  | none => none
  | some (.syncFile _) => some { fm with tasks := fm.tasks.eraseIdx i }
  | some (.createIndexFile id) => some (createIndexFile id { fm with tasks := fm.tasks.eraseIdx i })

/-- A file manager over the files on disk, before `Init`. -/
def create (max_open_files : ℕ) (metadata : MetadataManager) (dataFiles : ℕ → DataFile)
    (indexFiles : ℕ → Option Bytes) : FileManager :=
  { metadata
    openFiles := LRUCache.create max_open_files
    activeIndexLog := none
    activeDataFile := none
    activeFileId := 0
    dataFiles
    indexLogs := fun _ => []
    indexFiles
    tasks := [] }

/-- `Init` -/
def init (opens : OpenData) (fm : FileManager) : Status × FileManager :=
  match fm.metadata.getFiles.getLast? with
  | none => createFile opens 1 fm
  | some last => createFile opens last fm

end FileManager
end PedroDB
