import Mathlib.Data.Finset.Sort
import PedroDB.Defines

/-!
# The metadata manager

The set of registered files, kept in a log of creations and deletions behind a header
that names the database.

## Main definitions

* `MetadataManager` with `createFile`, `deleteFile`, `getFiles`
* `MetadataManager.recovery` — replay of a metadata file

## Main results

* `Logged.recovery_eq` — what was logged is what recovery restores
-/

namespace PedroDB

/-- `metadata::LogType` -/
inductive LogType
  | kCreateFile | kDeleteFile
  deriving DecidableEq, Repr

/-- `metadata::LogEntry` -/
structure LogEntry where
  type : LogType
  id : ℕ

/-- How a write to the metadata file and the `Sync` behind it end. -/
structure MetadataIo where
  writes : Bool
  syncs : Bool

def MetadataIo.sound : MetadataIo := { writes := true, syncs := true }

/-- `MetadataManager`; `file` is the content of the metadata file. -/
structure MetadataManager where
  name : Bytes
  files : Finset ℕ
  file : Bytes

section

variable [Platform]

namespace LogEntry

/-- `LogEntry::Pack`, the bytes it appends. -/
def pack (e : LogEntry) : Bytes :=
  (match e.type with
    | .kCreateFile => 0
    | .kDeleteFile => 1) :: Platform.putU32 (UInt32.ofNat e.id)

/-- `LogEntry::UnPack`. Every type byte but that of `kCreateFile` is treated as
`kDeleteFile` by the only reader. -/
def unPack (buffer : Bytes) : Option (LogEntry × Bytes) :=
  if buffer.length < 5 then none
  else
    some ({ type := if buffer.headD 0 = 0 then .kCreateFile else .kDeleteFile
            id := (Platform.getU32 ((buffer.drop 1).take 4)).toNat }, buffer.drop 5)

end LogEntry

namespace MetadataManager

/-- `GetFiles()`, in the order of the `std::set`. -/
def getFiles (m : MetadataManager) : List ℕ := m.files.sort (· ≤ ·)

/-- `Header::Pack` -/
def packHeader (name : Bytes) : Bytes :=
  Platform.putU16 (UInt16.ofNat name.length) ++ name

/-- `Header::UnPack` -/
def unPackHeader (buffer : Bytes) : Option (Bytes × Bytes) :=
  if buffer.length < 2 then none
  else
    let length := (Platform.getU16 (buffer.take 2)).toNat
    if (buffer.drop 2).length < length then none
    else some ((buffer.drop 2).take length, (buffer.drop 2).drop length)

/-- `CreateDatabase()` -/
def createDatabase (name : Bytes) : MetadataManager :=
  { name, files := ∅, file := packHeader name }

/-- Apply one log entry to the set of files. -/
def applyEntry (files : Finset ℕ) (e : LogEntry) : Finset ℕ :=
  match e.type with
  | .kCreateFile => insert e.id files
  | .kDeleteFile => files.erase e.id

/-- The loop of `Recovery()`; `none` is the fatal exit. -/
def replay : ℕ → Bytes → Finset ℕ → Option (Finset ℕ)
  | 0, buffer, files => if buffer = [] then some files else none
  | fuel + 1, buffer, files =>
    if buffer = [] then some files
    else
      match LogEntry.unPack buffer with
      | none => none
      | some (e, rest) => replay fuel rest (applyEntry files e)

/-- `Recovery()` of a metadata file. -/
def recovery (file : Bytes) : Option MetadataManager :=
  match unPackHeader file with
  | none => none
  | some (name, rest) =>
    (replay rest.length rest ∅).map fun files => { name, files, file }

/-- The end of `CreateFile` and `DeleteFile`: log the change and sync. -/
def logEntry (io : MetadataIo) (e : LogEntry) (m : MetadataManager) : Status × MetadataManager :=
  (if io.syncs then .kOk else .kIOError,
    { m with file := if io.writes then m.file ++ e.pack else m.file })

def createFile (io : MetadataIo) (id : ℕ) (m : MetadataManager) : Status × MetadataManager :=
  if id ∈ m.files then (.kOk, m)
  else logEntry io { type := .kCreateFile, id } { m with files := insert id m.files }

def deleteFile (io : MetadataIo) (id : ℕ) (m : MetadataManager) : Status × MetadataManager :=
  if id ∉ m.files then (.kOk, m)
  else logEntry io { type := .kDeleteFile, id } { m with files := m.files.erase id }

end MetadataManager

/-! ### What was logged is restored -/

section

variable {e : LogEntry} {rest : Bytes}

theorem LogEntry.length_pack : e.pack.length = 5 := by
  simp [pack]

theorem LogEntry.unPack_pack (hid : e.id < 2 ^ 32) : unPack (e.pack ++ rest) = some (e, rest) := by
  have hlen : ¬ (e.pack ++ rest).length < 5 := by
    rw [List.length_append, length_pack]
    omega
  have hnum : (UInt32.ofNat e.id).toNat = e.id := by
    rw [UInt32.toNat_ofNat']
    exact Nat.mod_eq_of_lt hid
  have htake : ((e.pack ++ rest).drop 1).take 4 = Platform.putU32 (UInt32.ofNat e.id) := by
    rw [pack, List.cons_append, List.drop_one, List.tail_cons,
      List.take_left' (Platform.length_putU32 _)]
  have hrest : (e.pack ++ rest).drop 5 = rest := List.drop_left' length_pack
  rw [unPack, if_neg hlen, htake, hrest, Platform.getU32_putU32, hnum]
  rcases e with ⟨type, id⟩
  cases type <;> simp [pack]

end

namespace MetadataManager

variable {m : MetadataManager} {es : List LogEntry} {files : Finset ℕ} {id : ℕ}

/-- The metadata file spells out how the set of files came about. -/
def Logged (m : MetadataManager) : Prop :=
  ∃ es : List LogEntry, m.file = packHeader m.name ++ es.flatMap LogEntry.pack ∧
    (∀ e ∈ es, e.id < 2 ^ 32) ∧ m.files = es.foldl applyEntry ∅

theorem unPackHeader_packHeader {name rest : Bytes} (hname : name.length < 2 ^ 16) :
    unPackHeader (packHeader name ++ rest) = some (name, rest) := by
  have hput : (Platform.putU16 (UInt16.ofNat name.length)).length = 2 := Platform.length_putU16 _
  have hnum : (UInt16.ofNat name.length).toNat = name.length := by
    rw [UInt16.toNat_ofNat']
    exact Nat.mod_eq_of_lt hname
  have htake : (packHeader name ++ rest).take 2 = Platform.putU16 (UInt16.ofNat name.length) := by
    rw [packHeader, List.append_assoc, List.take_left' hput]
  have hdrop : (packHeader name ++ rest).drop 2 = name ++ rest := by
    rw [packHeader, List.append_assoc, List.drop_left' hput]
  have hlen : ¬ (packHeader name ++ rest).length < 2 := by
    simp only [packHeader, List.length_append, hput]
    omega
  have hroom : ¬ (name ++ rest).length < name.length := by
    rw [List.length_append]
    omega
  rw [unPackHeader, if_neg hlen]
  simp only [htake, hdrop, Platform.getU16_putU16, hnum, if_neg hroom, List.take_left' rfl,
    List.drop_left' rfl]

theorem replay_flatMap_pack (hes : ∀ e ∈ es, e.id < 2 ^ 32) {fuel : ℕ} (hfuel : es.length ≤ fuel) :
    replay fuel (es.flatMap LogEntry.pack) files = some (es.foldl applyEntry files) := by
  induction es generalizing fuel files with
  | nil => cases fuel <;> simp [replay]
  | cons e es ih =>
    obtain ⟨fuel, rfl⟩ : ∃ n, fuel = n + 1 := ⟨fuel - 1, by simp at hfuel; omega⟩
    have hne : e.pack ++ es.flatMap LogEntry.pack ≠ [] := by
      intro h
      have := congrArg List.length h
      simp [LogEntry.length_pack] at this
    simp only [List.flatMap_cons, replay, if_neg hne,
      LogEntry.unPack_pack (hes e List.mem_cons_self), List.foldl_cons]
    exact ih (fun x hx => hes x (List.mem_cons_of_mem _ hx)) (by simpa using hfuel)

namespace Logged

/-- What was logged is what recovery restores. -/
theorem recovery_eq (h : m.Logged) (hname : m.name.length < 2 ^ 16) :
    recovery m.file = some m := by
  obtain ⟨es, hfile, hes, hfiles⟩ := h
  have hlen : es.length ≤ (es.flatMap LogEntry.pack).length := by
    clear hfile hes hfiles
    induction es with
    | nil => exact Nat.zero_le _
    | cons e es ih =>
      simp only [List.flatMap_cons, List.length_cons, List.length_append, LogEntry.length_pack]
      omega
  have hheader : unPackHeader m.file = some (m.name, es.flatMap LogEntry.pack) := by
    rw [hfile, unPackHeader_packHeader hname]
  simp only [recovery, hheader, replay_flatMap_pack hes hlen, ← hfiles, Option.map_some]

theorem createDatabase (name : Bytes) : (MetadataManager.createDatabase name).Logged :=
  ⟨[], by simp [MetadataManager.createDatabase], by simp, rfl⟩

private theorem concat (h : m.Logged) {e : LogEntry} (hid : e.id < 2 ^ 32) :
    (logEntry .sound e { m with files := applyEntry m.files e }).2.Logged := by
  obtain ⟨es, hfile, hes, hfiles⟩ := h
  refine ⟨es ++ [e], ?_, ?_, ?_⟩
  · simp [logEntry, MetadataIo.sound, hfile]
  · intro x hx
    rcases List.mem_append.mp hx with hx | hx
    · exact hes x hx
    · exact List.mem_singleton.mp hx ▸ hid
  · simp [logEntry, hfiles]

theorem createFile (h : m.Logged) (hid : id < 2 ^ 32) : (m.createFile .sound id).2.Logged := by
  unfold MetadataManager.createFile
  split_ifs
  · exact h
  · exact h.concat (e := { type := .kCreateFile, id }) hid

theorem deleteFile (h : m.Logged) (hid : id < 2 ^ 32) : (m.deleteFile .sound id).2.Logged := by
  unfold MetadataManager.deleteFile
  split_ifs
  · exact h.concat (e := { type := .kDeleteFile, id }) hid
  · exact h

end Logged

@[simp] theorem createFile_files :
    (m.createFile .sound id).2.files = insert id m.files := by
  unfold createFile
  split_ifs with h
  · exact (Finset.insert_eq_of_mem h).symm
  · rfl

@[simp] theorem deleteFile_files : (m.deleteFile .sound id).2.files = m.files.erase id := by
  unfold deleteFile
  split_ifs with h
  · rfl
  · exact (Finset.erase_eq_of_notMem h).symm

@[simp] theorem deleteFile_status : (m.deleteFile .sound id).1 = .kOk := by
  unfold deleteFile
  split_ifs <;> rfl

@[simp] theorem createFile_name : (m.createFile .sound id).2.name = m.name := by
  unfold createFile
  split_ifs <;> rfl

@[simp] theorem deleteFile_name : (m.deleteFile .sound id).2.name = m.name := by
  unfold deleteFile
  split_ifs <;> rfl

end MetadataManager

end

end PedroDB
