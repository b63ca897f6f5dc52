import PedroDB.Theorems.LostIndexFiles
import PedroDB.Theorems.SealedFiles

/-!
# Torn index files

`CreateIndexFile` makes the file as long as the index log first, and copies the log into it
then. The recovery takes every index file for a complete one. If the process dies in between,
the records that are not listed yet are out of sight, although they are in the data file.

## Main definitions

* `FileManager.dieInTask` — the files that a process leaves that dies in a task

## Main results

* `unPackAll_keep` — what is read from an index file that was not completed
* `Disk.Holds.openDb_torn` — opening a database with such a file
* `Session.torn_iff_unfinished` — when the loss can be seen
-/

namespace PedroDB

open Transition Framing LastWriter

section

variable [Platform] {opt : Options} {name : Bytes} {L : Log} {id k : ℕ}

/-- The process dies in the `i`-th task when it has copied so many bytes. -/
def FileManager.dieInTask (i copied : ℕ) (fm : FileManager) : FileManager :=
  match fm.tasks[i]? with
  | some (.createIndexFile id) =>
    let log := fm.indexLogs id
    if log = [] ∨ ∃ old ∈ fm.indexFiles id, old.length ≠ log.length then fm
    else
      -- `Open` has reserved a new file, which is then full of zeros.
      let file := (fm.indexFiles id).getD (List.replicate log.length 0)
      { fm with
        indexFiles := Function.update fm.indexFiles id
          (some (log.take copied ++ file.drop copied)) }
  | _ => fm

theorem FileManager.Tended.dieInTask_eq {fm : FileManager} {first i copied : ℕ}
    (h : fm.Tended first L) (hindexed : fm.Indexed L)
    (htask : fm.tasks[i]? = some (.createIndexFile id)) :
    fm.dieInTask i copied = { fm with
      indexFiles := Function.update fm.indexFiles id
        (some (Padded.keep 0 copied (packLog (L id)))) } := by
  have hmem := List.mem_of_getElem? htask
  rw [FileManager.dieInTask, htask]
  dsimp only
  rw [(hindexed.tasks id hmem).2, h.absent id hmem, if_neg, Option.getD_none, List.drop_replicate,
    Padded.keep]
  rw [packLog_eq_nil_iff]
  simpa using h.written id hmem

/-- What is read from an index file that lists only the first `k` records. -/
theorem unPackAll_keep {es : List Entry} (hs : ∀ e ∈ es, e.Storable)
    (hfits : totalSize es ≤ kMaxFileBytes) :
    ∃ rest, IndexEntry.unPackAll
        (Padded.keep 0 (packLog (es.take k)).length (packLog es)) =
          ((frames Entry.size (es.take k)).map fun r => IndexEntry.ofRecord r.1 r.2) ++ rest ∧
      ∀ e ∈ rest, e.type = .kEmpty := by
  have hsplit : packLog es = packLog (es.take k) ++
      (logFrom (totalSize (es.take k)) (es.drop k)).flatMap IndexEntry.pack := by
    conv_lhs => rw [← List.take_append_drop k es]
    rw [packLog, logFrom, framesFrom_append, List.map_append, List.flatMap_append, Nat.zero_add]
    rfl
  have hfits' : totalSize (es.take k) ≤ kMaxFileBytes := by
    refine le_trans ?_ hfits
    conv_rhs => rw [← List.take_append_drop k es]
    rw [totalSize_append]
    exact Nat.le_add_right _ _
  rw [Padded.keep, hsplit, List.take_left, IndexEntry.unPackAll, IndexEntry.decode_append_zeros]
  obtain ⟨rest, hdecode, hkEmpty, -⟩ :=
    decode_packLog (fun e he => hs e (List.mem_of_mem_take he)) hfits' _
  exact ⟨rest, hdecode, hkEmpty⟩

/-- `Init` does not look at index files. -/
theorem FileManager.init_indexFiles (fm : FileManager) (indexFiles : ℕ → Option Bytes) :
    FileManager.init .sound { fm with indexFiles } =
      ((fm.init .sound).1, { (fm.init .sound).2 with indexFiles }) := by
  have hcreate : ∀ id, FileManager.createFile .sound id { fm with indexFiles } =
      ((fm.createFile .sound id).1, { (fm.createFile .sound id).2 with indexFiles }) := by
    intro id
    simp only [FileManager.createFile, FileManager.scheduleSeal]
    cases fm.activeDataFile <;> rfl
  unfold FileManager.init
  dsimp only
  split
  · exact hcreate 1
  · exact hcreate _

/-- What the recovery sees of each file, if the index file of `id` lists only the first `k`
records. -/
def Log.recoveredTorn (L : Log) (indexFiles : ℕ → Option Bytes) (id k j : ℕ) :
    List (Location × Entry) :=
  if j = id then (frames Entry.size ((L id).take k)).map (locate id) else L.recovered indexFiles j

/-- A database opens on a disk with an index file that lists only the first `k` records of its
file, and finds these of it. -/
theorem Disk.Holds.openDb_torn {disk : Disk} {m : MetadataManager} {active : ℕ}
    (h : disk.Holds m active L) (opt : Options) (name : Bytes) (buffer : ReadBuffer)
    {bytes : Bytes} (hlists : id ∈ m.files → ∃ rest, IndexEntry.unPackAll bytes =
      ((frames Entry.size ((L id).take k)).map fun r => IndexEntry.ofRecord r.1 r.2) ++ rest ∧
        ∀ e ∈ rest, e.type = .kEmpty) :
    ∃ db buffer', DBImpl.openDb opt .sound name
        { disk with indexFiles := Function.update disk.indexFiles id (some bytes) } buffer =
          some (.kOk, db, buffer') ∧
      db.Recovers (L.recoveredTorn disk.indexFiles id k) := by
  obtain ⟨indexFiles, hindexFiles⟩ : ∃ f, f = Function.update disk.indexFiles id (some bytes) :=
    ⟨_, rfl⟩
  obtain ⟨fm, hfm⟩ : ∃ fm : FileManager, fm =
      { FileManager.openActive active (Disk.Holds.files opt disk m) with indexFiles } := ⟨_, rfl⟩
  have hreg : fm.Registered := by
    have hreg₀ := @openActive_registered _ _ _ _ _ opt h
    rw [hfm]
    exact ⟨hreg₀.active, hreg₀.linked, hreg₀.le_active, hreg₀.opened, hreg₀.wf, hreg₀.logged,
      hreg₀.bound⟩
  have hmetadata : fm.metadata = m := by
    rw [hfm, h.openActive_eq]
    rfl
  have hfiles : ∀ j, (fm.dataFiles j).Holds (L j) := by
    intro j
    rw [hfm]
    exact h.openActive_holds.files j
  have hmem : ∀ {j}, j ∈ fm.metadata.getFiles ↔ j ∈ fm.metadata.files := Finset.mem_sort _
  -- The recovery of each file.
  have hrecover : ∀ j ∈ fm.metadata.getFiles, ∀ db rs buffer,
      db.Replaying fm (ReadCache.create opt.segments opt.read_cache_bytes) → db.Recovers rs →
        (∀ i, ∀ r ∈ rs i, r.1.id < j) →
          ∃ db' rest', DBImpl.recoverFile opt j (db, buffer) = some (.kOk, db', rest') ∧
            db'.Replaying fm (ReadCache.create opt.segments opt.read_cache_bytes) ∧
            db'.maxFile = db.maxFile ∧
            db'.Recovers (Function.update rs j (L.recoveredTorn disk.indexFiles id k j)) := by
    intro j hj db rs buffer hreplaying hrecovers hnew
    rw [Log.recoveredTorn]
    by_cases hid : j = id
    · subst hid
      have hbytes : fm.indexFiles j = some bytes := by
        rw [hfm, hindexFiles]
        exact Function.update_self ..
      obtain ⟨rest, hdecode, hkEmpty⟩ := hlists (hmetadata ▸ hmem.mp hj)
      obtain ⟨db', hfile, h', hmax, hrec⟩ := hreplaying.recoverFile_of_index opt buffer hrecovers
        hnew hbytes hdecode hkEmpty
        (fun r hr => (hfiles j).storable r.2
          (List.mem_of_mem_take (At.mem (mem_frames_iff.mp hr))))
        (framesFrom_pairwise fun e _ => e.size_pos)
      rw [if_pos rfl]
      exact ⟨db', buffer, hfile, h', hmax, hrec⟩
    · have hsame : fm.indexFiles j = disk.indexFiles j := by
        rw [hfm, hindexFiles]
        exact Function.update_of_ne hid ..
      have hrecovered : L.recovered fm.indexFiles j = L.recovered disk.indexFiles j := by
        rw [Log.recovered, Log.recovered, hsame]
      rw [if_neg hid, ← hrecovered]
      refine hreplaying.recoverFile_of_file opt buffer hrecovers (hfiles j) ?_ (hmem.mp hj) hnew
      intro bytes hbytes
      exact (h.index j bytes (hsame ▸ hbytes)).2 (hmetadata ▸ hmem.mp hj)
  have hreplaying : (DBImpl.create opt fm).Replaying fm
      (ReadCache.create opt.segments opt.read_cache_bytes) :=
    ⟨⟨fm.openFiles, rfl⟩, hreg, rfl, rfl, Nat.zero_le _⟩
  have hempty : (DBImpl.create opt fm).Recovers fun _ => [] :=
    DBImpl.Recovers.empty (by funext key; rfl) fun f => rfl
  obtain ⟨db, buffer', hall, -, -, -, hrec⟩ := hreplaying.recoverFiles_of opt buffer hempty hrecover
    (fun j hj => hreg.le_active j (hmem.mp hj)) (Finset.sortedLT_sort _).pairwise (by simp)
  refine ⟨db, buffer', ?_, ?_⟩
  · -- Metadata, files and index, in this order.
    have hinit := FileManager.init_indexFiles (Disk.Holds.files opt disk m) indexFiles
    rw [h.init_eq, ← hfm] at hinit
    have hmeta : DBImpl.openMetadata name { disk with indexFiles } = some m :=
      h.openMetadata_eq name
    rw [← hindexFiles]
    simp only [DBImpl.openDb, hmeta]
    rw [show FileManager.create opt.max_open_files m
      (fun id => DataFile.onDisk (disk.dataFiles id)) indexFiles =
        { Disk.Holds.files opt disk m with indexFiles } from rfl, hinit]
    exact hall
  · convert hrec using 2 with j
    split_ifs with hj
    · rfl
    · -- A file without registration has no records.
      rw [hmem, hmetadata] at hj
      have hnil := (h.not_mem_files hj).2
      rw [Log.recoveredTorn]
      split_ifs with hid
      · rw [← hid, hnil, List.take_nil]
        rfl
      · simp [Log.recovered, Log.records, hnil, frames, framesFrom]

omit [Platform] in
/-- Those are the records in front of an offset. -/
theorem Log.recoveredTorn_eq (hroom : totalSize (L id) < kMaxFileBytes)
    (indexFiles : ℕ → Option Bytes) (k : ℕ) :
    L.recoveredTorn indexFiles id k = fun j => (L.recovered indexFiles j).filter
      fun r => j ≠ id ∨ r.1.offset < totalSize ((L id).take k) := by
  funext j
  rw [Log.recoveredTorn]
  split_ifs with hj
  · subst hj
    -- The file has room, so its last record is seen also without index file.
    have hall : L.recovered indexFiles j = L.records j := by
      rw [Log.recovered, ite_eq_left_iff]
      refine fun _ => List.filter_eq_self.mpr fun r hr => decide_eq_true ?_
      obtain ⟨rfl, hloc⟩ := Log.mem_records_iff.mp hr
      exact hloc.end_le.trans_lt hroom
    have hframes : (frames Entry.size ((L j).take k ++ (L j).drop k)).filter
        (fun r => r.1 < totalSize ((L j).take k)) = frames Entry.size ((L j).take k) :=
      frames_filter_lt fun e _ => e.size_pos
    rw [List.take_append_drop] at hframes
    rw [hall, Log.records, List.filter_map, ← hframes]
    congr 2
    funext r
    exact decide_eq_decide.mpr (by simp [locate])
  · simp [hj]

omit [Platform] in
/-- A record stands behind the first `k`, unless there are no more. -/
theorem Log.exists_located_take (hlt : ¬ (L id).length ≤ k) :
    ∃ e, Located L ⟨id, totalSize ((L id).take k)⟩ e := by
  obtain ⟨e, es, hes⟩ : ∃ e es, (L id).drop k = e :: es := by
    rw [← List.ne_nil_iff_exists_cons, ne_eq, List.drop_eq_nil_iff]
    exact hlt
  exact ⟨e, (L id).take k, es, by rw [← hes, List.take_append_drop], rfl⟩

omit [Platform] in
/-- All of the file is in front of the cut, or nothing of it is recovered. -/
theorem Log.recovered_filter_of_length_le {files : Finset ℕ} (indexFiles : ℕ → Option Bytes)
    (hall : id ∈ files → (L id).length ≤ k) :
    (fun j => ((L.restrict files).recovered indexFiles j).filter fun r => j ≠ id ∨
      r.1.offset < totalSize ((L.restrict files id).take k)) =
        (L.restrict files).recovered indexFiles := by
  funext j
  refine List.filter_eq_self.mpr fun r hr => decide_eq_true ?_
  rw [or_iff_not_imp_left, not_not]
  rintro rfl
  obtain ⟨rfl, hloc⟩ := Log.mem_records_iff.mp (Log.recovered_subset r hr)
  have hmem := (located_restrict_iff.mp hloc).1
  have hrestrict : L.restrict files r.1.id = L r.1.id := if_pos hmem
  rw [hrestrict, List.take_of_length_le (hall hmem), ← hrestrict]
  exact (Nat.lt_add_of_pos_right r.2.size_pos).trans_le hloc.end_le

namespace Session

variable {fs : List Fate} {s : Session} {i : ℕ}

/-- After any run with crashes, the process dies while it writes an index file, when it has
copied the entries of the first `k` records. The database opens, and each key has its newest
record among all records but those of this file behind the first `k`. Index and counters are as
if the process had died before exactly if no record is left out, or the file has been removed. -/
theorem torn_iff_unfinished (hname : name.length < 2 ^ 16)
    (hroomy : ∀ s₀, fresh opt name = some s₀ → Meets (fateStep opt name) (Roomy opt) s₀ fs)
    (hsurvives : Survives opt name fs s)
    (htask : s.db.fileManager.tasks[i]? = some (.createIndexFile id)) (k : ℕ)
    (buffer : ReadBuffer) : ∃ db rest db' rest',
      DBImpl.openDb opt .sound name s.db.fileManager.disk buffer = some (.kOk, db, rest) ∧
      DBImpl.openDb opt .sound name (s.db.fileManager.dieInTask i
        (packLog ((s.db.fileManager.log id).take k)).length).disk buffer =
          some (.kOk, db', rest') ∧
      Reflects recordView {r | s.db.fileManager.Readable r.1 r.2 ∧ (r.1.id = id →
        r.1.offset < totalSize ((s.db.fileManager.log id).take k))} db'.find ∧
      (((∀ key, db'.find key = db.find key) ∧
          ∀ f, (db'.fileStates f).free_bytes = (db.fileStates f).free_bytes) ↔
        (id ∈ s.db.fileManager.metadata.files → (s.db.fileManager.log id).length ≤ k)) := by
  obtain ⟨L, h, htended⟩ := exists_tended hname hroomy hsurvives
  have hsound := h.inv.sound
  have hdisk := FileManager.disk_holds hsound.holds hsound.indexed hsound.registered
    (h.name.symm ▸ hname)
  obtain ⟨db, rest, hopen, hre, -⟩ := hdisk.openDb_eq opt name buffer
  have hfile := hsound.holds.files id
  obtain ⟨bytes, hbytes⟩ : ∃ bytes, bytes =
      Padded.keep 0 (packLog ((L id).take k)).length (packLog (L id)) := ⟨_, rfl⟩
  have hlists : id ∈ s.db.fileManager.metadata.files → ∃ rest, IndexEntry.unPackAll bytes =
      ((frames Entry.size ((L.restrict s.db.fileManager.metadata.files id).take k)).map
        fun r => IndexEntry.ofRecord r.1 r.2) ++ rest ∧ ∀ e ∈ rest, e.type = .kEmpty := by
    intro hmem
    rw [hbytes, Log.restrict, if_pos hmem]
    exact unPackAll_keep hfile.storable hfile.fits
  obtain ⟨db', rest', hopen', hrec'⟩ := hdisk.openDb_torn opt name buffer hlists
  have hroom : totalSize (L.restrict s.db.fileManager.metadata.files id) < kMaxFileBytes := by
    rw [Log.restrict]
    split_ifs
    · exact h.room id
    · exact (h.room id).trans_le' (Nat.zero_le _)
  rw [Log.recoveredTorn_eq hroom] at hrec'
  have hrestrict : id ∈ s.db.fileManager.metadata.files →
      L.restrict s.db.fileManager.metadata.files id = L id := fun hmem => if_pos hmem
  rw [hsound.holds.log_eq, htended.dieInTask_eq hsound.indexed htask, ← hbytes]
  refine ⟨db, rest, db', rest', hopen, hopen', ?_, ?_⟩
  · have hset : {r | s.db.fileManager.Readable r.1 r.2 ∧
        (r.1.id = id → r.1.offset < totalSize ((L id).take k))} =
          {r : Location × Entry | r ∈ ((L.restrict s.db.fileManager.metadata.files).recovered
            s.db.fileManager.disk.indexFiles r.1.id).filter fun x => r.1.id ≠ id ∨
              x.1.offset < totalSize ((L.restrict s.db.fileManager.metadata.files id).take k)} := by
      ext r
      simp only [Set.mem_ofPred_eq, List.mem_filter, decide_eq_true_eq, ne_eq, ← imp_iff_not_or]
      rw [show s.db.fileManager.disk.indexFiles = s.db.fileManager.indexFiles from rfl,
        hsound.holds.readable_iff]
      refine and_congr_right fun hread => imp_congr_right fun hid => ?_
      rw [hrestrict (hid ▸ hread.1)]
    rw [hset]
    exact hrec'.reflects
  · constructor
    · rintro ⟨hfind, hfree⟩ hmem
      have hsame := hre.recovers.filter_eq hrec' (funext hfind) hfree id
      by_contra hlt
      -- The first record that is left out is no longer seen.
      obtain ⟨e, hat⟩ := Log.exists_located_take hlt
      have hseen : ((⟨id, totalSize ((L id).take k)⟩, e) : Location × Entry) ∈
          (L.restrict s.db.fileManager.metadata.files).recovered
            s.db.fileManager.disk.indexFiles id :=
        hsound.holds.readable_iff.mpr (h.readable_iff.mpr ⟨hmem, hat⟩)
      rw [← hsame, List.mem_filter, hrestrict hmem] at hseen
      simp at hseen
    · intro hall
      rw [Log.recovered_filter_of_length_le s.db.fileManager.disk.indexFiles hall] at hrec'
      obtain ⟨hfind, hfree⟩ := hre.recovers.unique hrec'
      exact ⟨congrFun hfind, hfree⟩

end Session

end

namespace Session

open scoped Reference

/-- A process dies between the two statements of `CreateIndexFile`. -/
theorem torn_iff_unfinished_sealed : ∃ (s : Session) (db : DBImpl) (rest : ReadBuffer)
    (db' : DBImpl) (rest' : ReadBuffer),
      s.db.fileManager.tasks = [.syncFile 1, .createIndexFile 1] ∧
      DBImpl.openDb Reference.options .sound [] s.db.fileManager.disk ReadBuffer.empty =
        some (.kOk, db, rest) ∧
      DBImpl.openDb Reference.options .sound [] (s.db.fileManager.dieInTask 1
        (packLog ((s.db.fileManager.log 1).take 0)).length).disk ReadBuffer.empty =
          some (.kOk, db', rest') ∧
      ¬ ((∀ key, db'.find key = db.find key) ∧
        ∀ f, (db'.fileStates f).free_bytes = (db.fileStates f).free_bytes) := by
  obtain ⟨s₀, s, as, hs₀, hroomy, hrun, -, -, hmem, htasks, -, hlength⟩ := exists_sealed
  obtain ⟨db, rest, db', rest', hopen, hopen', -, hiff⟩ := torn_iff_unfinished (by decide)
    (fun s₁ hs₁ => Option.some_inj.mp (hs₀.symm.trans hs₁) ▸ hroomy) ⟨s₀, hs₀, hrun⟩
    (show s.db.fileManager.tasks[1]? = some (.createIndexFile 1) by rw [htasks]; rfl) 0
    ReadBuffer.empty
  refine ⟨s, db, rest, db', rest', htasks, hopen, hopen', fun hsame => ?_⟩
  have := hiff.mp hsame hmem
  omega

end Session
end PedroDB
