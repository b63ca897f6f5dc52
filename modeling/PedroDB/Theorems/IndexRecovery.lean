import PedroDB.Recovery
import PedroDB.Reference

/-!
# Recovery from an index file

`Recovery(id)` of a file with an index file is a loop over an `IndexIterator`, which takes
every byte that its buffer has room for as data, also those behind the end of the file.

## Main definitions

* `DBImpl.RecoverLoop` — a run of `while (iter.Valid()) Recovery(id, iter.Next())`
* `IndexEntry.IsLog` — a list of entries as they are logged for one data file

## Main results

* `DBImpl.recoverLoop_iff` — on any bytes the loop ends, and with what
* `DBImpl.recoverFile_of_log` — on an index file it applies the logged entries, and no more
* `DBImpl.recoverEntries_isSome` — and does not abort if the index knows none of them
-/

namespace PedroDB

/-- Entries as they are logged for one data file: one for each record. -/
structure IndexEntry.IsLog (es : List IndexEntry) : Prop where
  types : ∀ e ∈ es, e.type = .kSet ∨ e.type = .kDelete
  keys : ∀ e ∈ es, e.key.length ≤ 255
  offsets : ∀ e ∈ es, e.offset < 2 ^ 32
  lens : ∀ e ∈ es, e.len < 2 ^ 32
  distinct : (es.map IndexEntry.offset).Nodup

namespace IndexEntry

variable {e : IndexEntry} {es : List IndexEntry}

theorem IsLog.storable (h : IsLog es) : ∀ e ∈ es, e.Storable := by
  intro e he
  refine ⟨h.keys e he, h.offsets e he, h.lens e he, ?_⟩
  rcases h.types e he with htype | htype
  · rw [htype]
    rfl
  · rw [htype]
    rfl

theorem IsLog.tail (h : IsLog (e :: es)) : IsLog es where
  types := fun x hx => h.types x (List.mem_cons_of_mem e hx)
  keys := fun x hx => h.keys x (List.mem_cons_of_mem e hx)
  offsets := fun x hx => h.offsets x (List.mem_cons_of_mem e hx)
  lens := fun x hx => h.lens x (List.mem_cons_of_mem e hx)
  distinct := (List.nodup_cons.mp h.distinct).2

theorem IsLog.offset_ne (h : IsLog (e :: es)) : ∀ x ∈ es, x.offset ≠ e.offset := by
  intro x hx heq
  apply (List.nodup_cons.mp h.distinct).1
  exact heq ▸ List.mem_map_of_mem hx

variable [Platform] {b b' : ReadBuffer}

/-- Every entry takes at least its fixed part out of the buffer. -/
theorem inBounds_of_unPack (hb : b.InBounds) (h : unPack b = (some e, b')) :
    b'.InBounds ∧ b'.readableBytes < b.readableBytes := by
  have hread := hb.readableBytes_eq
  unfold unPack at h
  dsimp only at h
  split_ifs at h with hpeek hroom
  · cases congrArg Prod.fst h
  · cases congrArg Prod.fst h
  · obtain rfl := congrArg Prod.snd h
    simp only [sizeOfKey] at hroom
    have hin : b.readIndex ≤ b.capacity := hb
    have hb' : (b.retrieve (sizeOfKey ((b.peek 1).headD 0).toNat)).InBounds := by
      apply ReadBuffer.InBounds.retrieve
      simp only [sizeOfKey]
      omega
    refine ⟨hb', ?_⟩
    rw [hb'.readableBytes_eq, ReadBuffer.retrieve_capacity, ReadBuffer.retrieve_readIndex]
    simp only [sizeOfKey]
    omega

/-- An empty buffer holds no entry. -/
theorem unPack_of_readableBytes (h : b.readableBytes = 0) : unPack b = (none, b) := by
  rw [unPack, if_pos]
  rw [h]
  exact Nat.zero_lt_one

end IndexEntry

/-! ### The loop of `Recovery(id)` -/

namespace DBImpl

variable [Platform] {opt : Options} {id : ℕ} {db db' : DBImpl} {b b' : ReadBuffer}
  {e : IndexEntry} {es : List IndexEntry} {r : Option DBImpl}

/-- A run of `while (iter.Valid()) Recovery(id, iter.Next())` that ends, on the buffer of an
`IndexIterator`; with `none` when the process aborts. -/
inductive RecoverLoop (opt : Options) (id : ℕ) :
    DBImpl → ReadBuffer → Option DBImpl → Prop
  | stop (db : DBImpl) (b b' : ReadBuffer) (hvalid : IndexEntry.unPack b = (none, b')) :
      RecoverLoop opt id db b (some db)
  | abort (db : DBImpl) (b b' : ReadBuffer) (e : IndexEntry)
      (hvalid : IndexEntry.unPack b = (some e, b')) (hentry : recoverEntry opt id db e = none) :
      RecoverLoop opt id db b none
  | next (db db' : DBImpl) (b b' : ReadBuffer) (e : IndexEntry) (r : Option DBImpl)
      (hvalid : IndexEntry.unPack b = (some e, b')) (hentry : recoverEntry opt id db e = some db')
      (hrest : RecoverLoop opt id db' b' r) : RecoverLoop opt id db b r

/-- The loop ends in one way. -/
theorem RecoverLoop.unique {r r' : Option DBImpl} (h : RecoverLoop opt id db b r)
    (h' : RecoverLoop opt id db b r') : r = r' := by
  induction h with
  | stop db b b₁ hvalid =>
    cases h' with
    | stop => rfl
    | abort _ _ _ _ hvalid' => simp [hvalid] at hvalid'
    | next _ _ _ _ _ _ hvalid' => simp [hvalid] at hvalid'
  | abort db b b₁ e hvalid hentry =>
    cases h' with
    | stop _ _ _ hvalid' => simp [hvalid] at hvalid'
    | abort => rfl
    | next _ _ _ _ _ _ hvalid' hentry' =>
      have hsame : (some e, b₁) = _ := hvalid.symm.trans hvalid'
      cases hsame
      simp [hentry] at hentry'
  | next db db₁ b b₁ e r hvalid hentry hrest ih =>
    cases h' with
    | stop _ _ _ hvalid' => simp [hvalid] at hvalid'
    | abort _ _ _ _ hvalid' hentry' =>
      have hsame : (some e, b₁) = _ := hvalid.symm.trans hvalid'
      cases hsame
      simp [hentry] at hentry'
    | next _ _ _ _ _ _ hvalid' hentry' hrest' =>
      have hsame : (some e, b₁) = _ := hvalid.symm.trans hvalid'
      cases hsame
      have hstate : some db₁ = _ := hentry.symm.trans hentry'
      cases hstate
      exact ih hrest'

/-- The loop ends on any bytes: each round takes some of them. -/
theorem recoverLoop_collect {rounds : ℕ} (hb : b.InBounds) (hrounds : b.readableBytes ≤ rounds) :
    RecoverLoop opt id db b
      ((ReadBuffer.collect IndexEntry.unPack rounds b).foldlM (recoverEntry opt id) db) := by
  induction rounds generalizing db b with
  | zero =>
    have hempty : b.readableBytes = 0 := Nat.le_zero.mp hrounds
    exact RecoverLoop.stop _ _ _ (IndexEntry.unPack_of_readableBytes hempty)
  | succ rounds ih =>
    rw [ReadBuffer.collect]
    rcases hvalid : IndexEntry.unPack b with ⟨_ | e, b'⟩
    · exact RecoverLoop.stop _ _ _ hvalid
    · obtain ⟨hb', hless⟩ := IndexEntry.inBounds_of_unPack hb hvalid
      dsimp only
      rw [List.foldlM_cons]
      cases hentry : recoverEntry opt id db e with
      | none => exact RecoverLoop.abort _ _ _ _ hvalid hentry
      | some db' =>
        apply RecoverLoop.next _ _ _ _ _ _ hvalid hentry
        apply ih hb'
        omega

/-- On an index file with any bytes the loop ends with the entries of `unPackAll` applied. -/
theorem recoverLoop_iff (bytes : Bytes) :
    RecoverLoop opt id db (IndexEntry.fileBuffer bytes (Platform.slack bytes.length)) r ↔
      r = (IndexEntry.unPackAll bytes).foldlM (recoverEntry opt id) db := by
  have hloop : RecoverLoop opt id db
      (IndexEntry.fileBuffer bytes (Platform.slack bytes.length))
      ((IndexEntry.unPackAll bytes).foldlM (recoverEntry opt id) db) := by
    have hb : (IndexEntry.fileBuffer bytes (Platform.slack bytes.length)).InBounds :=
      Nat.zero_le _
    apply recoverLoop_collect hb
    rw [hb.readableBytes_eq]
    exact le_rfl
  constructor
  · intro h
    exact h.unique hloop
  · intro h
    rw [h]
    exact hloop

/-! ### Index files -/

/-- Behind the logged entries nothing is found that changes anything. -/
theorem recoverEntries_unPackAll (hes : IndexEntry.IsLog es) :
    (IndexEntry.unPackAll (es.flatMap IndexEntry.pack)).foldlM (recoverEntry opt id) db =
      es.foldlM (recoverEntry opt id) db := by
  obtain ⟨rest, hdecode, hkEmpty, -⟩ := @IndexEntry.decode_flatMap_pack _ es
    (Platform.slack (es.flatMap IndexEntry.pack).length) hes.storable
  have hrest : rest.foldlM (recoverEntry opt id) = some := by
    funext db'
    exact recoverEntries_kEmpty opt id db' hkEmpty
  rw [IndexEntry.unPackAll, hdecode, List.foldlM_append, hrest]
  exact bind_pure _

section Aborting

omit [Platform]

/-- The recovery of an entry makes the index lead to that entry, or to nothing new. -/
theorem find_of_recoverEntry {key : Key} {dir : Dir} (h : recoverEntry opt id db e = some db')
    (hfind : db'.find key = some dir) : db.find key = some dir ∨ dir.loc = ⟨id, e.offset⟩ := by
  have hinsert : ∀ db₁ : DBImpl, db₁.find = db.find →
      ({ db₁ with indices := db₁.indices.insert e.key ⟨e.len, ⟨id, e.offset⟩⟩ } : DBImpl).find key =
        some dir → db.find key = some dir ∨ dir.loc = ⟨id, e.offset⟩ := by
    intro db₁ hsame hfind
    rw [find_insert, hsame] at hfind
    split_ifs at hfind with hkey
    · right
      cases hfind
      rfl
    · exact Or.inl hfind
  unfold recoverEntry at h
  dsimp only at h
  cases htype : e.type with
  | kSet =>
    rw [htype] at h
    dsimp only at h
    split at h
    · cases h
      exact hinsert db rfl hfind
    · split_ifs at h
      · cases h
        rw [find_updateUnused] at hfind
        exact Or.inl hfind
      · cases h
        exact hinsert _ (find_updateUnused _ _ _ _) hfind
  | kDelete =>
    left
    rw [htype] at h
    dsimp only at h
    rw [find_updateUnused] at h
    split at h
    · cases h
      rw [find_updateUnused] at hfind
      exact hfind
    · split_ifs at h
      · cases h
        rw [find_updateUnused] at hfind
        exact hfind
      · cases h
        rw [find_erase, find_updateUnused, find_updateUnused] at hfind
        split_ifs at hfind
        exact hfind
  | kEmpty =>
    rw [htype] at h
    cases h
    exact Or.inl hfind
  | other byte =>
    rw [htype] at h
    cases h
    exact Or.inl hfind

/-- The recovery aborts only on a second entry for one location. -/
theorem recoverEntry_isSome
    (hnew : ∀ key dir, db.find key = some dir → dir.loc ≠ ⟨id, e.offset⟩) :
    (recoverEntry opt id db e).isSome := by
  unfold recoverEntry
  dsimp only
  cases e.type with
  | kSet =>
    dsimp only
    split
    · rfl
    · next dir hfind =>
      rw [if_neg (hnew e.key dir hfind)]
      split_ifs
      · rfl
      · rfl
  | kDelete =>
    dsimp only
    split
    · rfl
    · split_ifs
      · rfl
      · rfl
  | kEmpty => rfl
  | other byte => rfl

/-- The entries of a log are applied without abort, if the index leads to none of them yet. -/
theorem recoverEntries_isSome (hes : IndexEntry.IsLog es)
    (hnew : ∀ e ∈ es, ∀ key dir, db.find key = some dir → dir.loc ≠ ⟨id, e.offset⟩) :
    (es.foldlM (recoverEntry opt id) db).isSome := by
  induction es generalizing db with
  | nil => rfl
  | cons e es ih =>
    rw [List.foldlM_cons]
    have hsome : (recoverEntry opt id db e).isSome :=
      recoverEntry_isSome (hnew e List.mem_cons_self)
    cases hentry : recoverEntry opt id db e with
    | none => simp [hentry] at hsome
    | some db' =>
      apply ih hes.tail
      intro x hx key dir hfind
      rcases find_of_recoverEntry hentry hfind with hold | hloc
      · exact hnew x (List.mem_cons_of_mem e hx) key dir hold
      · -- The entries behind this one have other offsets.
        rw [hloc]
        intro heq
        exact hes.offset_ne x hx (congrArg Location.offset heq).symm

end Aborting

omit [Platform] in
/-- The index file of a log holds exactly its bytes. -/
theorem createIndexFile_indexFiles {fm : FileManager} (hlog : fm.indexLogs id ≠ [])
    (hold : fm.indexFiles id = none) :
    (fm.createIndexFile id).indexFiles id = some (fm.indexLogs id) := by
  unfold FileManager.createIndexFile
  dsimp only
  rw [if_neg]
  · exact Function.update_self _ _ _
  · simp [hlog, hold]

/-- The recovery from an index file applies exactly the logged entries: its loop ends, and it
ends as the fold over the entries does. That is without abort, if the index leads to none of
the logged records yet. -/
theorem recoverFile_of_log (opt : Options) (id : ℕ) (db : DBImpl) (buffer : ReadBuffer)
    (es : List IndexEntry) (hes : IndexEntry.IsLog es)
    (hfile : db.fileManager.indexFiles id = some (es.flatMap IndexEntry.pack)) :
    (∀ r, RecoverLoop opt id db (IndexEntry.fileBuffer (es.flatMap IndexEntry.pack)
        (Platform.slack (es.flatMap IndexEntry.pack).length)) r ↔
      r = es.foldlM (recoverEntry opt id) db) ∧
    recoverFile opt id (db, buffer) =
      (es.foldlM (recoverEntry opt id) db).map (fun db' => (.kOk, db', buffer)) ∧
    ((∀ e ∈ es, ∀ key dir, db.find key = some dir → dir.loc ≠ ⟨id, e.offset⟩) →
      (es.foldlM (recoverEntry opt id) db).isSome) := by
  refine ⟨fun r => ?_, ?_, recoverEntries_isSome hes⟩
  · rw [recoverLoop_iff, recoverEntries_unPackAll hes]
  · simp only [recoverFile, hfile, recoverEntries_unPackAll hes]

end DBImpl

/-! ### An index log with three entries -/

namespace Reference

/-- Buffers with room for two more entries. -/
@[reducible] def roomy : Platform := { platform with slack := fun _ => 24 }

/-- Two keys were set, and the first one was deleted again. -/
def threeEntries : List IndexEntry :=
  [{ key := [107], type := .kSet, offset := 0, len := 16 },
    { key := [108], type := .kSet, offset := 16, len := 16 },
    { key := [107], type := .kDelete, offset := 32, len := 15 }]

/-- Files with the index log of the first data file. -/
def loggedFiles : FileManager :=
  { FileManager.create 8 (MetadataManager.createDatabase []) (fun _ => DataFile.absent)
      fun _ => none with
    indexLogs := fun _ => threeEntries.flatMap (@IndexEntry.pack roomy) }

/-- A database with the index file of that log. -/
def loggedDb : DBImpl := DBImpl.create options (loggedFiles.createIndexFile 1)

end Reference

/-- The two empty entries behind the three logged ones are decoded, and change nothing. -/
theorem DBImpl.recoverFile_of_log_three : ∃ db,
    @recoverFile Reference.roomy Reference.options 1 (Reference.loggedDb, ReadBuffer.empty) =
      some (.kOk, db, ReadBuffer.empty) ∧
    (@IndexEntry.unPackAll Reference.roomy
      (Reference.threeEntries.flatMap (@IndexEntry.pack Reference.roomy))).length = 5 ∧
    db.find [107] = none ∧ db.find [108] = some ⟨16, ⟨1, 16⟩⟩ ∧
    (db.fileStates 1).free_bytes = 31 := by
  let _ := Reference.roomy
  have hlog : IndexEntry.IsLog Reference.threeEntries :=
    ⟨by decide, by decide, by decide, by decide, by decide⟩
  have hfile : Reference.loggedDb.fileManager.indexFiles 1 =
      some (Reference.threeEntries.flatMap IndexEntry.pack) :=
    @createIndexFile_indexFiles 1 Reference.loggedFiles (by decide) rfl
  obtain ⟨-, hrecover, -⟩ := recoverFile_of_log Reference.options 1 Reference.loggedDb
    ReadBuffer.empty Reference.threeEntries hlog hfile
  refine ⟨_, hrecover, ?_, ?_, ?_, ?_⟩
  · decide
  · decide
  · decide
  · decide

end PedroDB
