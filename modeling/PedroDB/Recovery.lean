import PedroDB.Accounting

/-!
# Recovery

`Recovery` replays the registered files in ascending order of their ids, from the index
file if there is one, else from the data file. A record at the very end of a data file
without index file is not seen.

## Main definitions

* `Log.recovered` — the records of a file that the recovery sees
* `DBImpl.Recovers` — an index and its counters built from given records
* `Disk.Holds` — a disk that holds the records of a log
* `DBImpl.Reopened` — the database opened on such a disk

## Main results

* `DBImpl.Recovers.entry` — the recovery of one entry
* `Disk.Holds.openDb_eq` — opening the database
* `FileManager.disk_holds` — the disk of a sound file manager
-/

namespace PedroDB

open Framing LastWriter

variable {L : Log} {rs : ℕ → List (Location × Entry)} {id o : ℕ} {e : Entry}

/-- The records of file `id` that the recovery sees. -/
def Log.recovered (L : Log) (indexFiles : ℕ → Option Bytes) (id : ℕ) : List (Location × Entry) :=
  if (indexFiles id).isSome then L.records id
  else (L.records id).filter fun r => r.1.offset + r.2.size < kMaxFileBytes

theorem Log.recovered_subset {indexFiles : ℕ → Option Bytes} :
    ∀ r ∈ L.recovered indexFiles id, r ∈ L.records id := by
  intro r hr
  unfold Log.recovered at hr
  split_ifs at hr
  · exact hr
  · exact List.mem_of_mem_filter hr

namespace DBImpl

variable {db db' db'' : DBImpl}

/-- Only the index and what is counted beside it are different. -/
def Reindexed (db db' : DBImpl) : Prop :=
  ∃ tasks states indices,
    db' = { db with compactTasks := tasks, fileStates := states, indices }

theorem Reindexed.refl (db : DBImpl) : db.Reindexed db := ⟨_, _, _, rfl⟩

theorem Reindexed.trans (h : db.Reindexed db') (h' : db'.Reindexed db'') :
    db.Reindexed db'' := by
  obtain ⟨_, _, _, rfl⟩ := h
  obtain ⟨tasks, states, indices, rfl⟩ := h'
  exact ⟨tasks, states, indices, rfl⟩

theorem Reindexed.fileManager (h : db.Reindexed db') : db'.fileManager = db.fileManager := by
  obtain ⟨_, _, _, rfl⟩ := h
  rfl

/-- The index and the counters are those of the records `rs`. -/
structure Recovers (db : DBImpl) (rs : ℕ → List (Location × Entry)) : Prop where
  located : ∀ id, ∀ r ∈ rs id, r.1.id = id
  sorted : ∀ id, (rs id).Pairwise fun a b => a.1 < b.1
  reflects : Reflects recordView {r | r ∈ rs r.1.id} db.find
  free : ∀ f, (db.fileStates f).free_bytes = deadBytes db.find (rs f)

/-- The recovery of an empty entry changes nothing. -/
theorem recoverEntry_kEmpty (opt : Options) (id : ℕ) (db : DBImpl) {e : IndexEntry}
    (htype : e.type = .kEmpty) : recoverEntry opt id db e = some db := by
  simp only [recoverEntry, htype]

/-- Neither does the recovery of many. -/
theorem recoverEntries_kEmpty (opt : Options) (id : ℕ) (db : DBImpl) {es : List IndexEntry}
    (htypes : ∀ e ∈ es, e.type = .kEmpty) : es.foldlM (recoverEntry opt id) db = some db := by
  induction es with
  | nil => rfl
  | cons e es ih =>
    rw [List.foldlM_cons, recoverEntry_kEmpty opt id db (htypes e List.mem_cons_self)]
    apply ih
    intro x hx
    exact htypes x (List.mem_cons_of_mem e hx)

/-- What the recovery of an entry does, if the index points in front of it. -/
theorem recoverEntry_eq (opt : Options) {e : IndexEntry}
    (htype : e.type = .kSet ∨ e.type = .kDelete)
    (hbehind : ∀ dir, db.find e.key = some dir → dir.loc < ⟨id, e.offset⟩) :
    ∃ tasks states indices, recoverEntry opt id db e =
        some { db with compactTasks := tasks, fileStates := states, indices } ∧
      (∀ key, indices.lookup key = if key = e.key then
        if e.type = .kSet then some { entry_size := e.len, loc := ⟨id, e.offset⟩ } else none
        else db.find key) ∧
      ∀ f, (states f).free_bytes = (db.fileStates f).free_bytes + db.replaced e.key f +
        if e.type ≠ .kSet ∧ f = id then e.len else 0 := by
  have hlookup : ∀ key, key ≠ e.key → (db.indices.erase e.key).lookup key = db.find key :=
    fun key hkey => AList.lookup_erase_ne hkey
  rcases htype with htype | htype
  · -- A set record replaces what was there.
    simp only [recoverEntry, htype, replaced]
    rcases hfind : db.find e.key with _ | dir
    · refine ⟨db.compactTasks, db.fileStates, _, rfl, fun key => ?_, by simp⟩
      exact find_insert
    · have hlt := hbehind dir hfind
      have hne : dir.loc ≠ ⟨id, e.offset⟩ := hlt.ne
      obtain ⟨tasks, states, heq⟩ := updateUnused_eq opt dir.loc dir.entry_size db
      have hfree := free_updateUnused opt dir.loc dir.entry_size db
      rw [heq] at hfree
      simp only [if_neg (Location.lt_asymm hlt), if_neg hne, heq]
      refine ⟨tasks, states, _, rfl, fun key => ?_, by simpa using hfree⟩
      exact find_insert
  · -- A tombstone counts as unused at once, and so does what it deletes.
    obtain ⟨tasks, states, heq⟩ := updateUnused_eq opt ⟨id, e.offset⟩ e.len db
    have hfree := free_updateUnused opt ⟨id, e.offset⟩ e.len db
    rw [heq] at hfree
    have hsame : ({ db with compactTasks := tasks, fileStates := states } : DBImpl).find e.key =
        db.find e.key := rfl
    simp only [recoverEntry, htype, replaced, heq, hsame, reduceCtorEq, if_false]
    rcases hfind : db.find e.key with _ | dir
    · refine ⟨tasks, states, db.indices, rfl, fun key => ?_, by simpa using hfree⟩
      split_ifs with hkey
      · exact hkey ▸ hfind
      · rfl
    · obtain ⟨tasks', states', heq'⟩ := updateUnused_eq opt dir.loc dir.entry_size
        { db with compactTasks := tasks, fileStates := states }
      have hfree' := free_updateUnused opt dir.loc dir.entry_size
        { db with compactTasks := tasks, fileStates := states }
      rw [heq'] at hfree'
      simp only [if_neg (Location.lt_asymm (hbehind dir hfind)), heq']
      refine ⟨tasks', states', _, rfl, fun key => ?_, fun f => ?_⟩
      · split_ifs with hkey
        · subst hkey
          exact AList.lookup_erase _ _
        · exact hlookup key hkey
      · have := hfree f
        have := hfree' f
        simp only [ne_eq, reduceCtorEq, not_false_eq_true, true_and] at *
        omega

namespace Recovers

theorem catalogued (h : db.Recovers rs) : db.Catalogued rs where
  located := h.located
  sorted := h.sorted
  pointed := by
    intro key dir hfind
    obtain ⟨r, hr, hkey, -, rfl, -⟩ := h.reflects.live key dir hfind
    exact ⟨r, hr, hkey, rfl⟩

/-- No record of a file has been replayed, if all are of files in front of it. -/
theorem eq_nil_of_lt (h : db.Recovers rs) (hnew : ∀ j, ∀ r ∈ rs j, r.1.id < id) : rs id = [] := by
  refine List.eq_nil_iff_forall_not_mem.mpr fun r hr => ?_
  exact absurd (hnew id r hr) (by rw [h.located id r hr]; exact lt_irrefl id)

theorem congr (h : db.Recovers rs) (hindices : db'.indices = db.indices)
    (hstates : db'.fileStates = db.fileStates) : db'.Recovers rs := by
  have hfind : db'.find = db.find := by
    funext key
    simp only [find, hindices]
  exact ⟨h.located, h.sorted, hfind ▸ h.reflects, by rw [hstates, hfind]; exact h.free⟩

theorem empty {db : DBImpl} (hfind : db.find = fun _ => none)
    (hfree : ∀ f, (db.fileStates f).free_bytes = 0) : db.Recovers fun _ => [] where
  located := by simp
  sorted := fun _ => List.Pairwise.nil
  reflects := by
    rw [hfind]
    simpa using Reflects.empty
  free := hfree

/-- What one more record, behind all others, does to the index and to the counters. -/
theorem concat (h : db.Recovers rs) (hnew : ∀ j, ∀ r ∈ rs j, r.1 < ⟨id, o⟩)
    (hfind : ∀ key, db'.find key = if key = e.key then
      if e.type = .kSet then some { entry_size := e.size, loc := ⟨id, o⟩ } else none
      else db.find key)
    (hfree : ∀ f, (db'.fileStates f).free_bytes = (db.fileStates f).free_bytes +
      db.replaced e.key f + if e.type ≠ .kSet ∧ f = id then e.size else 0) :
    db'.Recovers (Function.update rs id (rs id ++ [(⟨id, o⟩, e)])) where
  located := by
    intro j r hr
    -- Only the file of the new record has one more.
    by_cases hj : j = id
    · subst hj
      rw [Function.update_self] at hr
      rcases List.mem_append.mp hr with hr | hr
      · exact h.located j r hr
      · rw [List.mem_singleton.mp hr]
    · rw [Function.update_of_ne hj] at hr
      exact h.located j r hr
  sorted := by
    intro j
    by_cases hj : j = id
    · subst hj
      rw [Function.update_self]
      refine List.pairwise_append.mpr ⟨h.sorted j, List.pairwise_singleton _ _, ?_⟩
      intro a ha b hb
      rw [List.mem_singleton.mp hb]
      exact hnew j a ha
    · rw [Function.update_of_ne hj]
      exact h.sorted j
  reflects := by
    -- The records of all files are the old ones and this one.
    have hset : {r | r ∈ Function.update rs id (rs id ++ [(⟨id, o⟩, e)]) r.1.id} =
        insert ((⟨id, o⟩, e) : Location × Entry) {r | r ∈ rs r.1.id} := by
      ext r
      simp only [Set.mem_ofPred_eq, Set.mem_insert_iff]
      by_cases hid : r.1.id = id
      · rw [hid, Function.update_self, List.mem_append, List.mem_singleton, or_comm]
      · rw [Function.update_of_ne hid]
        refine ⟨Or.inr, fun hr => hr.resolve_left ?_⟩
        rintro rfl
        exact hid rfl
    rw [hset]
    refine h.reflects.insert (fun r hr => hnew _ r hr) (fun hsets => ?_) (fun hsets => ?_)
      fun k hk => ?_
    · have htype : e.type = .kSet := hsets
      simp only [hfind, recordView_key, recordView_entry, if_true, htype]
    · have htype : e.type ≠ .kSet := hsets
      simp only [hfind, recordView_key, if_true, htype, if_false]
    · rw [recordView_key] at hk
      rw [hfind, if_neg hk]
  free := by
    intro f
    -- What the new record replaces has become dead bytes.
    have hdead : deadBytes db'.find (rs f) = deadBytes db.find (rs f) + db.replaced e.key f := by
      refine h.catalogued.deadBytes_eq (fun k hk => by rw [hfind, if_neg hk]) fun r hr _ hpoint => ?_
      rw [hfind, if_pos rfl] at hpoint
      split_ifs at hpoint with hset
      have hloc : (⟨id, o⟩ : Location) = r.1 := congrArg Dir.loc (Option.some_inj.mp hpoint)
      exact lt_irrefl _ (hloc ▸ hnew f r hr)
    rw [hfree, h.free, ← hdead]
    by_cases hf : f = id
    · subst hf
      rw [Function.update_self, deadBytes_concat, hfind, if_pos rfl]
      by_cases hset : e.type = .kSet <;> simp [hset]
    · simp only [Function.update_of_ne hf, hf, and_false, if_false, Nat.add_zero]

variable (opt : Options)

/-- The recovery of one entry, when the index is about records in front of it. -/
theorem entry (h : db.Recovers rs) (hs : e.Storable)
    (hnew : ∀ j, ∀ r ∈ rs j, r.1 < ⟨id, o⟩) :
    ∃ db', recoverEntry opt id db (IndexEntry.ofRecord o e) = some db' ∧ db.Reindexed db' ∧
      db'.Recovers (Function.update rs id (rs id ++ [(⟨id, o⟩, e)])) := by
  have hbehind : ∀ dir, db.find e.key = some dir → dir.loc < ⟨id, o⟩ := by
    intro dir hdir
    obtain ⟨r, hr, -, hentry⟩ := h.catalogued.pointed e.key dir hdir
    exact hentry ▸ hnew _ r hr
  obtain ⟨tasks, states, indices, hentry, hfind, hfree⟩ :=
    recoverEntry_eq opt (e := IndexEntry.ofRecord o e) hs.type hbehind
  have hlen : (IndexEntry.ofRecord o e).len = e.size := hs.sizeOf_eq
  rw [hlen] at hfind hfree
  exact ⟨_, hentry, ⟨_, _, _, rfl⟩, h.concat hnew hfind hfree⟩

/-- The recovery of some records of file `id`, behind all others. -/
theorem entries (h : db.Recovers rs) {fr : List (ℕ × Entry)} (hs : ∀ r ∈ fr, r.2.Storable)
    (hsorted : fr.Pairwise fun a b => a.1 < b.1)
    (hnew : ∀ j, ∀ r ∈ rs j, ∀ x ∈ fr, r.1 < ⟨id, x.1⟩) :
    ∃ db', (fr.map fun r => IndexEntry.ofRecord r.1 r.2).foldlM (recoverEntry opt id) db =
        some db' ∧ db.Reindexed db' ∧
      db'.Recovers (Function.update rs id (rs id ++ fr.map (locate id))) := by
  induction fr generalizing db rs with
  | nil => exact ⟨db, rfl, .refl db, by simpa using h⟩
  | cons x fr ih =>
    obtain ⟨hx, hsorted⟩ := List.pairwise_cons.mp hsorted
    obtain ⟨db₁, hentry, hre, h₁⟩ := h.entry opt (hs x List.mem_cons_self) fun j r hr =>
      hnew j r hr x List.mem_cons_self
    -- The entries that are left stand behind the new record.
    have hnew₁ : ∀ j, ∀ r ∈ Function.update rs id (rs id ++ [(⟨id, x.1⟩, x.2)]) j, ∀ y ∈ fr,
        r.1 < ⟨id, y.1⟩ := by
      intro j r hr y hy
      have hold := fun j hr => hnew j r hr y (List.mem_cons_of_mem _ hy)
      by_cases hj : j = id
      · subst hj
        rw [Function.update_self] at hr
        rcases List.mem_append.mp hr with hr | hr
        · exact hold j hr
        · rw [List.mem_singleton.mp hr]
          exact Location.lt_iff.mpr (Or.inr ⟨rfl, hx y hy⟩)
      · rw [Function.update_of_ne hj] at hr
        exact hold j hr
    obtain ⟨db', hfold, hre', h'⟩ := ih h₁ (fun r hr => hs r (List.mem_cons_of_mem _ hr)) hsorted
      hnew₁
    refine ⟨db', ?_, hre.trans hre', ?_⟩
    · simpa [hentry] using hfold
    · simpa [locate] using h'

end Recovers

/-! ### Files -/

variable [Platform] {fm : FileManager} {cache : SegmentCache Bytes} {ids : List ℕ}

/-- A database that is being recovered over the files of `fm`. -/
structure Replaying (fm : FileManager) (cache : SegmentCache Bytes) (db : DBImpl) : Prop where
  files : ∃ o, db.fileManager = { fm with openFiles := o }
  registered : db.fileManager.Registered
  writable : db.readonly = false
  cache : db.readCache = cache
  maxFile : db.maxFile ≤ fm.activeFileId

namespace Replaying

theorem reindexed (h : db.Replaying fm cache) (hre : db.Reindexed db') :
    db'.Replaying fm cache := by
  obtain ⟨_, _, _, rfl⟩ := hre
  exact ⟨h.files, h.registered, h.writable, h.cache, h.maxFile⟩

/-- Another cache of open files. -/
theorem openFiles {fm' : FileManager} (h : db.Replaying fm cache)
    (hfm : ∃ o, fm' = { db.fileManager with openFiles := o }) (hreg : fm'.Registered) :
    ({ db with fileManager := fm' } : DBImpl).Replaying fm cache := by
  refine ⟨?_, hreg, h.writable, h.cache, h.maxFile⟩
  obtain ⟨o', heq⟩ := h.files
  obtain ⟨o, rfl⟩ := hfm
  exact ⟨o, by rw [heq]⟩

/-- The recovery of a file from its index file, which lists the records `fr`, behind all files
that were recovered before. -/
theorem recoverFile_of_index (opt : Options) (buffer : ReadBuffer) (h : db.Replaying fm cache)
    (hrec : db.Recovers rs) (hnew : ∀ j, ∀ r ∈ rs j, r.1.id < id) {bytes : Bytes}
    (hbytes : fm.indexFiles id = some bytes) {fr : List (ℕ × Entry)} {rest : List IndexEntry}
    (hdecode : IndexEntry.unPackAll bytes =
      (fr.map fun r => IndexEntry.ofRecord r.1 r.2) ++ rest)
    (hkEmpty : ∀ e ∈ rest, e.type = .kEmpty) (hs : ∀ r ∈ fr, r.2.Storable)
    (hsorted : fr.Pairwise fun a b => a.1 < b.1) :
    ∃ db', recoverFile opt id (db, buffer) = some (.kOk, db', buffer) ∧
      db'.Replaying fm cache ∧ db'.maxFile = db.maxFile ∧
      db'.Recovers (Function.update rs id (fr.map (locate id))) := by
  obtain ⟨o, hfm⟩ := h.files
  have hindex : db.fileManager.indexFiles = fm.indexFiles := by rw [hfm]
  obtain ⟨db', hfold, hre, hrec'⟩ := hrec.entries opt hs hsorted fun j r hr x _ =>
    Location.lt_iff.mpr (Or.inl (hnew j r hr))
  -- No record of this file has been replayed.
  rw [hrec.eq_nil_of_lt hnew, List.nil_append] at hrec'
  -- The empty entries behind the log change nothing.
  have hrest : rest.foldlM (recoverEntry opt id) db' = some db' :=
    recoverEntries_kEmpty opt id db' hkEmpty
  refine ⟨db', ?_, h.reindexed hre, ?_, hrec'⟩
  · simp only [recoverFile, hindex, hbytes, hdecode, List.foldlM_append, hfold,
      Option.bind_eq_bind, Option.bind_some, hrest, Option.map_some]
  · obtain ⟨_, _, _, rfl⟩ := hre
    rfl

/-- The recovery of a file without index file, behind all files that were recovered before. -/
theorem recoverFile_of_scan (opt : Options) (buffer : ReadBuffer) (h : db.Replaying fm cache)
    (hrec : db.Recovers rs) (hnew : ∀ j, ∀ r ∈ rs j, r.1.id < id)
    (hnone : fm.indexFiles id = none) (hmem : id ∈ fm.metadata.files) {es : List Entry}
    (hfile : (fm.dataFiles id).Holds es) :
    ∃ db' rest, recoverFile opt id (db, buffer) = some (.kOk, db', rest) ∧
      db'.Replaying fm cache ∧ db'.maxFile = db.maxFile ∧
      db'.Recovers (Function.update rs id ((readableFrames 0 es).map (locate id))) := by
  obtain ⟨o, hfm⟩ := h.files
  have hindex : db.fileManager.indexFiles = fm.indexFiles := by rw [hfm]
  have hdata : db.fileManager.dataFiles = fm.dataFiles := by rw [hfm]
  have hmem' : id ∈ db.fileManager.metadata.files := by rw [hfm]; exact hmem
  obtain ⟨fm₁, hacquire, hfm₁, hreg₁⟩ : ∃ fm₁,
      db.fileManager.acquireDataFile id = (.kOk, fm₁) ∧
        (∃ o, fm₁ = { db.fileManager with openFiles := o }) ∧ fm₁.Registered := by
    obtain ⟨o₁, hacquire, hreg₁⟩ := h.registered.acquireDataFile_eq id
    rw [if_pos hmem'] at hacquire
    exact ⟨_, hacquire, ⟨o₁, rfl⟩, hreg₁⟩
  have hdata₁ : fm₁.dataFiles = fm.dataFiles := by
    obtain ⟨o₁, rfl⟩ := hfm₁
    exact hdata
  have hscan := hfile.scan_eq buffer
  rcases hs : RecordIterator.scan (fm.dataFiles id).data kMaxFileBytes
    (RecordIterator.create kMaxFileBytes) buffer with ⟨records, rest⟩
  rw [hs] at hscan
  obtain rfl : records = readableFrames 0 es := hscan
  have hsorted : (readableFrames 0 es).Pairwise fun a b => a.1 < b.1 :=
    (framesFrom_pairwise fun e _ => e.size_pos).filter _
  have hstorable : ∀ r ∈ readableFrames 0 es, r.2.Storable := fun r hr =>
    hfile.storable r.2 (At.mem (mem_frames_iff.mp (List.mem_of_mem_filter hr)))
  have hrec₁ : ({ db with fileManager := fm₁ } : DBImpl).Recovers rs := hrec.congr rfl rfl
  obtain ⟨db', hfold, hre, hrec'⟩ := hrec₁.entries opt hstorable hsorted fun j r hr x _ =>
    Location.lt_iff.mpr (Or.inl (hnew j r hr))
  -- No record of this file has been replayed.
  rw [hrec.eq_nil_of_lt hnew, List.nil_append] at hrec'
  have h' := (h.openFiles hfm₁ hreg₁).reindexed hre
  -- The scan gives its handle back.
  have hrelease : (db'.fileManager.releaseDataFile id).Registered :=
    h'.registered.openFiles h'.registered.wf.remove fun j hj =>
      h'.registered.opened j (LRUCache.mem_remove hj)
  refine ⟨{ db' with fileManager := db'.fileManager.releaseDataFile id }, rest, ?_,
    h'.openFiles ⟨_, rfl⟩ hrelease, ?_, hrec'.congr rfl rfl⟩
  · simp only [recoverFile, hindex, hnone, hacquire, hdata₁, hs, hfold, Option.map_some]
  · obtain ⟨_, _, _, rfl⟩ := hre
    rfl

/-- The recovery of a registered file, from the index file that lists its records if there is
one. -/
theorem recoverFile_of_file (opt : Options) (buffer : ReadBuffer) (h : db.Replaying fm cache)
    (hrec : db.Recovers rs) (hfile : (fm.dataFiles id).Holds (L id))
    (hindex : ∀ bytes, fm.indexFiles id = some bytes → bytes = packLog (L id))
    (hmem : id ∈ fm.metadata.files) (hnew : ∀ j, ∀ r ∈ rs j, r.1.id < id) :
    ∃ db' rest, recoverFile opt id (db, buffer) = some (.kOk, db', rest) ∧
      db'.Replaying fm cache ∧ db'.maxFile = db.maxFile ∧
      db'.Recovers (Function.update rs id (L.recovered fm.indexFiles id)) := by
  rcases hbytes : fm.indexFiles id with _ | bytes
  · have hrecovered : L.recovered fm.indexFiles id =
        (readableFrames 0 (L id)).map (locate id) := by
      rw [Log.recovered, if_neg (by simp [hbytes]), Log.records, readableFrames,
        List.filter_map]
      rfl
    rw [hrecovered]
    exact h.recoverFile_of_scan opt buffer hrec hnew hbytes hmem hfile
  · -- The index file lists the records, and perhaps nothing behind them.
    obtain rfl := hindex bytes hbytes
    obtain ⟨rest, hdecode, hkEmpty, -⟩ := decode_packLog hfile.storable hfile.fits
      (Platform.slack (packLog (L id)).length)
    obtain ⟨db', hrecover, h', hmax, hrec'⟩ := h.recoverFile_of_index opt buffer hrec hnew hbytes
      hdecode hkEmpty (fun r hr => hfile.storable r.2 (At.mem (mem_frames_iff.mp hr)))
      (framesFrom_pairwise fun e _ => e.size_pos)
    rw [Log.recovered, if_pos (by simp [hbytes])]
    exact ⟨db', buffer, hrecover, h', hmax, hrec'⟩

/-- The recovery of registered files in ascending order, of which each one adds what is
`seen` of it. -/
theorem recoverFiles_of (opt : Options) (buffer : ReadBuffer) (h : db.Replaying fm cache)
    (hrec : db.Recovers rs) {seen : ℕ → List (Location × Entry)}
    (hfile : ∀ id ∈ ids, ∀ db rs buffer, db.Replaying fm cache → db.Recovers rs →
      (∀ j, ∀ r ∈ rs j, r.1.id < id) →
        ∃ db' rest, recoverFile opt id (db, buffer) = some (.kOk, db', rest) ∧
          db'.Replaying fm cache ∧ db'.maxFile = db.maxFile ∧
          db'.Recovers (Function.update rs id (seen id)))
    (hle : ∀ id ∈ ids, id ≤ fm.activeFileId) (hsorted : ids.Pairwise (· < ·))
    (hnew : ∀ id ∈ ids, ∀ j, ∀ r ∈ rs j, r.1.id < id) :
    ∃ db' rest, recoverFiles opt ids (db, buffer) = some (.kOk, db', rest) ∧
      db'.Replaying fm cache ∧ db.maxFile ≤ db'.maxFile ∧ (∀ id ∈ ids, id ≤ db'.maxFile) ∧
      db'.Recovers fun j => if j ∈ ids then seen j else rs j := by
  induction ids generalizing db rs buffer with
  | nil => exact ⟨db, buffer, rfl, h, le_rfl, by simp, by simpa using hrec⟩
  | cons id ids ih =>
    obtain ⟨hid, hsorted⟩ := List.pairwise_cons.mp hsorted
    -- The greatest id so far.
    have h₁ : ({ db with maxFile := max db.maxFile id } : DBImpl).Replaying fm cache :=
      ⟨h.files, h.registered, h.writable, h.cache,
        Nat.max_le.mpr ⟨h.maxFile, hle id List.mem_cons_self⟩⟩
    obtain ⟨db₂, rest, hfile₂, h₂, hmax₂, hrec₂⟩ := hfile id List.mem_cons_self _ rs buffer h₁
      (hrec.congr rfl rfl) (hnew id List.mem_cons_self)
    obtain ⟨db', rest', hfiles, h', hmax', hle', hrec'⟩ := ih rest h₂ hrec₂
      -- The next file has a greater id than all records so far.
      (fun j hj => hfile j (List.mem_cons_of_mem _ hj))
      (fun j hj => hle j (List.mem_cons_of_mem _ hj)) hsorted fun k hk j r hr => by
        by_cases hj : j = id
        · subst hj
          rw [hrec₂.located j r hr]
          exact hid k hk
        · rw [Function.update_of_ne hj] at hr
          exact hnew k (List.mem_cons_of_mem _ hk) j r hr
    have hmax : max db.maxFile id ≤ db'.maxFile := hmax₂.symm.le.trans hmax'
    refine ⟨db', rest', by simp only [recoverFiles, hfile₂, hfiles], h',
      (Nat.le_max_left _ _).trans hmax, ?_, ?_⟩
    · intro j hj
      rcases List.mem_cons.mp hj with rfl | hj
      · exact (Nat.le_max_right _ _).trans hmax
      · exact hle' j hj
    · -- The files that are left, and the one just replayed.
      convert hrec' using 2 with j
      by_cases hj : j = id
      · subst hj
        have hnot : j ∉ ids := fun hj => lt_irrefl j (hid j hj)
        simp [hnot]
      · simp [hj]

/-- The recovery of registered files in ascending order, each from the index file that lists
its records if there is one. -/
theorem recoverFiles_eq (opt : Options) (buffer : ReadBuffer) (h : db.Replaying fm cache)
    (hrec : db.Recovers rs) (hholds : fm.Holds L) (hindexed : fm.Indexed L)
    (hmem : ∀ id ∈ ids, id ∈ fm.metadata.files)
    (hactive : ∀ id ∈ fm.metadata.files, id ≤ fm.activeFileId)
    (hsorted : ids.Pairwise (· < ·)) (hnew : ∀ id ∈ ids, ∀ j, ∀ r ∈ rs j, r.1.id < id) :
    ∃ db' rest, recoverFiles opt ids (db, buffer) = some (.kOk, db', rest) ∧
      db'.Replaying fm cache ∧ db.maxFile ≤ db'.maxFile ∧ (∀ id ∈ ids, id ≤ db'.maxFile) ∧
      db'.Recovers fun j => if j ∈ ids then L.recovered fm.indexFiles j else rs j := by
  refine h.recoverFiles_of opt buffer hrec (fun id hid db rs buffer h hrec hnew => ?_)
    (fun id hid => hactive id (hmem id hid)) hsorted hnew
  exact h.recoverFile_of_file opt buffer hrec (hholds.files id)
    (fun bytes hbytes => (hindexed.files id bytes hbytes).2 (hmem id hid)) (hmem id hid) hnew

end Replaying

/-! ### Opening a database -/

/-- A database just opened over the records of a log. -/
structure Reopened (opt : Options) (disk : Disk) (L : Log) (db : DBImpl) : Prop where
  sound : db.Sound L
  recovers : db.Recovers (L.recovered disk.indexFiles)
  maxFile : db.maxFile = db.fileManager.activeFileId
  cache : db.readCache = ReadCache.create opt.segments opt.read_cache_bytes

end DBImpl

/-- A disk with these registered files and their records; the last one is `active`. -/
structure Disk.Holds [Platform] (disk : Disk) (m : MetadataManager) (active : ℕ) (L : Log) :
    Prop where
  metadata : disk.metadata = m.file
  logged : m.Logged
  name : m.name.length < 2 ^ 16
  mem_active : active ∈ m.files
  le_active : ∀ id ∈ m.files, id ≤ active
  bound : active < 2 ^ 32
  present : ∀ id, (disk.dataFiles id).isSome ↔ id ∈ m.files
  records : ∀ id, (DataFile.onDisk (disk.dataFiles id)).Holds (L id)
  index : ∀ id bytes, disk.indexFiles id = some bytes →
    id < active ∧ (id ∈ m.files → bytes = packLog (L id))

namespace Disk.Holds

variable [Platform] {disk : Disk} {m : MetadataManager} {active : ℕ} {opt : Options}

theorem not_mem_files (h : disk.Holds m active L) (hid : id ∉ m.files) :
    disk.dataFiles id = none ∧ L id = [] := by
  have hnone : disk.dataFiles id = none := by
    rw [← Option.not_isSome_iff_eq_none]
    exact fun hsome => hid ((h.present id).mp hsome)
  refine ⟨hnone, ?_⟩
  have hrecords := h.records id
  rw [hnone] at hrecords
  exact hrecords.unPackAll_eq.symm.trans FileManager.unPackAll_absent

/-- The files of the database before `Init`. -/
def files (opt : Options) (disk : Disk) (m : MetadataManager) : FileManager :=
  FileManager.create opt.max_open_files m (fun id => DataFile.onDisk (disk.dataFiles id))
    disk.indexFiles

theorem openMetadata_eq (h : disk.Holds m active L) (name : Bytes) :
    DBImpl.openMetadata name disk = some m := by
  have hne : m.file ≠ [] := by
    obtain ⟨es, hfile, -⟩ := h.logged
    intro heq
    have := congrArg List.length (hfile.symm.trans heq)
    simp [MetadataManager.packHeader] at this
  rw [DBImpl.openMetadata, h.metadata, if_neg hne]
  exact h.logged.recovery_eq h.name

/-- The last registered file becomes the active one again. -/
theorem init_eq (h : disk.Holds m active L) :
    (files opt disk m).init .sound = (.kOk, FileManager.openActive active (files opt disk m)) := by
  have hlast : m.getFiles.getLast? = some active := by
    have hmem : ∀ {id}, id ∈ m.getFiles ↔ id ∈ m.files := Finset.mem_sort _
    rcases List.eq_nil_or_concat m.getFiles with hnil | ⟨ids, x, hids⟩
    · have := hmem.mpr h.mem_active
      rw [hnil] at this
      cases this
    · have hsorted : m.getFiles.Pairwise (· ≤ ·) := Finset.pairwise_sort _ _
      have hx : x ≤ active := h.le_active x (hmem.mp (by simp [hids]))
      have hactive : active ∈ ids ++ [x] := by
        rw [← List.concat_eq_append, ← hids]
        exact hmem.mpr h.mem_active
      rw [hids, List.concat_eq_append] at hsorted ⊢
      rw [List.getLast?_concat]
      rcases List.mem_append.mp hactive with hin | hin
      · have := (List.pairwise_append.mp hsorted).2.2 active hin x (by simp)
        rw [Nat.le_antisymm hx this]
      · rw [List.mem_singleton.mp hin]
  have hgetFiles : (files opt disk m).metadata.getFiles = m.getFiles := rfl
  rw [FileManager.init, hgetFiles, hlast]
  rfl

theorem linked_iff (h : disk.Holds m active L) :
    (DataFile.onDisk (disk.dataFiles id)).linked = true ↔ id ∈ m.files := by
  rw [← h.present id]
  rcases disk.dataFiles id with _ | data <;> simp [DataFile.onDisk, DataFile.absent]

theorem opened_eq (h : disk.Holds m active L) :
    (files opt disk m).opened active = DataFile.onDisk (disk.dataFiles active) :=
  if_pos (h.linked_iff.mpr h.mem_active)

theorem opened_holds (h : disk.Holds m active L) :
    ((files opt disk m).opened active).Holds (L active) :=
  h.opened_eq ▸ h.records active

/-- The files of the database after `Init`. -/
theorem openActive_eq (h : disk.Holds m active L) :
    FileManager.openActive active (files opt disk m) =
      { files opt disk m with
        activeIndexLog := some active
        activeDataFile := some active
        activeFileId := active
        dataFiles := Function.update (fun id => DataFile.onDisk (disk.dataFiles id)) active
          { DataFile.onDisk (disk.dataFiles active) with
            writeIndex := totalSize (L active), linked := true }
        indexLogs := Function.update (fun _ => []) active (packLog (L active)) } := by
  have hmetadata : (m.createFile .sound active).2 = m := by
    rw [MetadataManager.createFile, if_pos h.mem_active]
  rw [FileManager.openActive_eq h.opened_holds, h.opened_eq]
  simp only [files, FileManager.create, hmetadata]

theorem openActive_holds (h : disk.Holds m active L) :
    (FileManager.openActive active (files opt disk m)).Holds L where
  toLaid := FileManager.openActive_laid (fun j _ => h.records j) h.opened_holds
  fresh := by
    intro id hid
    have hid' : active < id := by
      rw [h.openActive_eq] at hid
      exact hid
    have hnot : id ∉ m.files := fun hmem => Nat.not_lt.mpr (h.le_active id hmem) hid'
    obtain ⟨hnone, hL⟩ := h.not_mem_files hnot
    refine ⟨?_, hL⟩
    rw [h.openActive_eq]
    simp only [Function.update_of_ne (Nat.ne_of_gt hid'), hnone]
    rfl

theorem openActive_indexed (h : disk.Holds m active L) :
    (FileManager.openActive active (files opt disk m)).Indexed L := by
  rw [h.openActive_eq]
  exact ⟨by simp only [Function.update_self], fun _ htask => absurd htask List.not_mem_nil, h.index⟩

theorem openActive_registered (h : disk.Holds m active L) :
    (FileManager.openActive active (files opt disk m)).Registered := by
  rw [h.openActive_eq]
  refine ⟨h.mem_active, fun id => ?_, h.le_active, by simp [files, FileManager.create,
    LRUCache.create], LRUCache.wf_create _, h.logged, h.bound⟩
  refine Iff.trans ?_ h.linked_iff
  by_cases hid : id = active
  · subst hid
    simp only [Function.update_self, h.linked_iff.mpr h.mem_active]
  · simp only [Function.update_of_ne hid]

/-- A database opens on a disk that holds the records of a log. -/
theorem openDb_eq (opt : Options) (name : Bytes) (buffer : ReadBuffer)
    (h : disk.Holds m active L) : ∃ db rest,
    DBImpl.openDb opt .sound name disk buffer = some (.kOk, db, rest) ∧
      db.Reopened opt disk L ∧ ∃ o, db.fileManager =
        { FileManager.openActive active (files opt disk m) with openFiles := o } := by
  obtain ⟨fm, hfm⟩ : ∃ fm, fm = FileManager.openActive active (files opt disk m) := ⟨_, rfl⟩
  have hholds : fm.Holds L := hfm ▸ h.openActive_holds
  have hindexed : fm.Indexed L := hfm ▸ h.openActive_indexed
  have hreg : fm.Registered := hfm ▸ h.openActive_registered
  have hindexFiles : fm.indexFiles = disk.indexFiles := by
    rw [hfm, h.openActive_eq]
    rfl
  have hmem : ∀ {id}, id ∈ fm.metadata.getFiles ↔ id ∈ fm.metadata.files := Finset.mem_sort _
  -- The recovery starts with an empty index.
  have hreplaying : (DBImpl.create opt fm).Replaying fm
      (ReadCache.create opt.segments opt.read_cache_bytes) :=
    ⟨⟨fm.openFiles, rfl⟩, hreg, rfl, rfl, Nat.zero_le _⟩
  have hrecovers : (DBImpl.create opt fm).Recovers fun _ => [] :=
    DBImpl.Recovers.empty (by funext key; rfl) fun f => rfl
  obtain ⟨db, rest, hrecover, h', -, hle, hrec⟩ := hreplaying.recoverFiles_eq opt buffer hrecovers
    hholds hindexed (fun id hid => hmem.mp hid) hreg.le_active (Finset.sortedLT_sort _).pairwise
    (by simp)
  have hmetadata : fm.metadata = m := by
    rw [hfm, h.openActive_eq]
    rfl
  -- A file without registration has no records.
  have hrs : (fun j => if j ∈ fm.metadata.getFiles then L.recovered fm.indexFiles j else []) =
      L.recovered disk.indexFiles := by
    funext j
    rw [hindexFiles]
    split_ifs with hj
    · rfl
    · rw [hmem, hmetadata] at hj
      simp [Log.recovered, Log.records, (h.not_mem_files hj).2, frames, framesFrom]
  rw [hrs] at hrec
  -- Metadata, files and index, in this order.
  have hopen : DBImpl.openDb opt .sound name disk buffer = some (.kOk, db, rest) := by
    have hinit := @init_eq _ _ _ _ _ opt h
    rw [← hfm] at hinit
    simp only [DBImpl.openDb, h.openMetadata_eq name]
    rw [files] at hinit
    rw [hinit]
    exact hrecover
  obtain ⟨o, ho⟩ := h'.files
  have hactive : db.fileManager.activeFileId = fm.activeFileId := by rw [ho]
  have hfiles : db.fileManager.metadata = m := by rw [ho, ← hmetadata]
  have hlocated : ∀ key dir, db.find key = some dir → ∃ e, Located L dir.loc e ∧ e.key = key ∧
      e.type = .kSet ∧ dir.entry_size = e.size := by
    intro key dir hfind
    obtain ⟨r, hr, hkey, hsets, rfl, -⟩ := hrec.reflects.live key dir hfind
    exact ⟨r.2, (Log.mem_records_iff.mp (Log.recovered_subset r hr)).2, hkey, hsets, rfl⟩
  refine ⟨db, rest, hopen, ⟨⟨?_, ?_, h'.registered, hlocated, ?_, h'.writable, ?_⟩, hrec, ?_,
    h'.cache⟩, o, ho.trans (by rw [hfm])⟩
  · exact ho ▸ hholds.openFiles o
  · exact ho ▸ hindexed.openFiles o
  · -- Where the index leads, there is a record, so a registered file.
    intro key dir hfind
    obtain ⟨e, hloc, -⟩ := hlocated key dir hfind
    rw [hfiles]
    by_contra hnot
    have := hloc.mem
    rw [(h.not_mem_files hnot).2] at this
    cases this
  · exact hactive ▸ h'.maxFile
  · rw [hactive]
    exact Nat.le_antisymm h'.maxFile (hle _ (hmem.mpr hreg.active))

end Disk.Holds

/-! ### What a process leaves on disk -/

/-- The records of these files only. -/
def Log.restrict (L : Log) (files : Finset ℕ) : Log := fun id => if id ∈ files then L id else []

theorem located_restrict_iff {files : Finset ℕ} {loc : Location} :
    Located (L.restrict files) loc e ↔ loc.id ∈ files ∧ Located L loc e := by
  unfold Located Log.restrict
  split_ifs with h
  · simp [h]
  · simp [h, RecordAt, not_at_nil]

theorem Log.records_restrict {files : Finset ℕ} (hid : id ∈ files) :
    (L.restrict files).records id = L.records id := by
  simp only [Log.records, Log.restrict, if_pos hid]

/-- What a process leaves on disk when it stops. -/
theorem FileManager.disk_holds [Platform] {fm : FileManager} (hholds : fm.Holds L)
    (hindexed : fm.Indexed L) (hreg : fm.Registered) (hname : fm.metadata.name.length < 2 ^ 16) :
    fm.disk.Holds fm.metadata fm.activeFileId (L.restrict fm.metadata.files) where
  metadata := rfl
  logged := hreg.logged
  name := hname
  mem_active := hreg.active
  le_active := hreg.le_active
  bound := hreg.bound
  present := by
    intro id
    rw [← hreg.linked id, FileManager.disk]
    dsimp only
    split_ifs with hlinked <;> simp [hlinked]
  records := by
    intro id
    rw [FileManager.disk, Log.restrict]
    by_cases hid : id ∈ fm.metadata.files
    · -- A registered file is linked, and the disk has it.
      have hfile := hholds.files id
      simp only [if_pos hid, (hreg.linked id).mpr hid, if_true]
      exact ⟨hfile.data, hfile.fits, hfile.storable⟩
    · -- Any other one is not there.
      have hlinked : (fm.dataFiles id).linked = false :=
        Bool.eq_false_iff.mpr fun hl => hid ((hreg.linked id).mp hl)
      simp only [if_neg hid, hlinked, Bool.false_eq_true, if_false]
      exact FileManager.absent_holds
  index := by
    intro id bytes hbytes
    obtain ⟨hlt, hlog⟩ := hindexed.files id bytes hbytes
    refine ⟨hlt, fun hid => ?_⟩
    rw [Log.restrict, if_pos hid]
    exact hlog hid

end PedroDB
