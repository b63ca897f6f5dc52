import PedroDB.Restart

/-!
# Crashes

The process may die between any two of its atomic blocks: in the middle of a compaction, in
front of the index update of a write, or right after a roll-over. Another process then
opens what is on disk.

## Main definitions

* `DBImpl.recordOf`, `DBImpl.answer` — what the index leads to, and what a direct `Get` reports
* `Session.Death`, `Session.filesAt` — where the process dies, and the files it leaves
* `Session.Fate`, `Session.fateStep` — the runs
* `Session.Roomy` — the condition on the steps that keeps every record in sight
* `Session.Durable` — what holds all along a run that meets it

## Main results

* `Session.Durable.step`, `Session.Durable.exists_filesAt`, `Session.Durable.reopened` — the
  invariant, along a step and across a crash
* `Session.Durable.recordOf_reopened` — what a new process finds
-/

namespace PedroDB

open LastWriter

variable [Platform] {opt : Options} {name : Bytes} {L : Log} {key : Key} {dir : Dir} {e : Entry}

namespace DBImpl

variable {db db' : DBImpl}

/-- The record of a key, decoded at the location that the index has for it. -/
def recordOf (db : DBImpl) (key : Key) : Option Entry :=
  (db.find key).bind fun dir =>
    (Entry.unPack ((FileManager.readableBuffer
      (db.fileManager.dataFiles dir.loc.id)).retrieve dir.loc.offset)).1

/-- What a `Get` that bypasses the read cache reports. -/
def answer (opt : Options) (db : DBImpl) (key : Key) : Option Reply :=
  (db.handleGet opt false key ReadBuffer.empty).map Prod.fst

/-- The reply that is due when this is the record of the key. -/
def replyTo (opt : Options) (record : Option Entry) : Reply :=
  record.elim ⟨.kNotFound, none⟩ (replyOf opt)

theorem recordOf_of_none (hfind : db.find key = none) : db.recordOf key = none := by
  rw [recordOf, hfind, Option.bind_none]

theorem Sound.recordOf_eq (h : db.Sound L) (hfind : db.find key = some dir)
    (hloc : Located L dir.loc e) : db.recordOf key = some e := by
  rw [recordOf, hfind, Option.bind_some, (h.holds.files dir.loc.id).unPack_eq hloc]

theorem Sound.recordOf_isSome (h : db.Sound L) :
    (db.recordOf key).isSome ↔ (db.find key).isSome := by
  rcases hfind : db.find key with _ | dir
  · simp [recordOf_of_none hfind]
  · obtain ⟨e, hloc, -⟩ := h.pointed key dir hfind
    simp [h.recordOf_eq hfind hloc]

/-- A key whose index entry leads to the same record as before. -/
theorem Sound.recordOf_congr {L' : Log} (h : db.Sound L) (h' : db'.Sound L')
    (hnone : db.find key = none → db'.find key = none)
    (hsome : ∀ dir e, db.find key = some dir → Located L dir.loc e → e.key = key →
      ∃ dir', db'.find key = some dir' ∧ Located L' dir'.loc e) :
    db'.recordOf key = db.recordOf key := by
  rcases hfind : db.find key with _ | dir
  · rw [recordOf_of_none hfind, recordOf_of_none (hnone hfind)]
  · obtain ⟨e, hloc, hkey, -⟩ := h.pointed key dir hfind
    obtain ⟨dir', hfind', hloc'⟩ := hsome dir e hfind hloc hkey
    rw [h.recordOf_eq hfind hloc, h'.recordOf_eq hfind' hloc']

/-- The index is as before, and the records are where they were. -/
theorem Sound.recordOf_eq_of_find {L' : Log} (h : db.Sound L) (h' : db'.Sound L')
    (hfind : db'.find = db.find) (hlocated : ∀ loc e, Located L loc e → Located L' loc e)
    (key : Key) : db'.recordOf key = db.recordOf key :=
  h.recordOf_congr h' (fun hnone => by rw [hfind, hnone]) fun dir _ hdir hloc _ =>
    ⟨dir, by rw [hfind, hdir], hlocated _ _ hloc⟩

/-- An index update leads its key to the record of the write. -/
theorem Sound.recordOf_updateIndex {w : Write} {loc : Location} (h : db.Sound L)
    (hloc : Located L loc (entryOf opt w)) (hfile : loc.id ∈ db.fileManager.metadata.files)
    (key : Key) : (DBImpl.updateIndex opt w loc db).2.recordOf key =
      if key = w.key then if w.value = [] then none else some (entryOf opt w)
      else db.recordOf key := by
  have hsound := h.updateIndex hloc hfile
  have hfind : (DBImpl.updateIndex opt w loc db).2.find key = _ := find_updateIndex
  split_ifs at hfind ⊢ with hkey hvalue
  · exact recordOf_of_none hfind
  · exact hsound.recordOf_eq hfind hloc
  · exact h.recordOf_congr hsound (fun hnone => hfind.trans hnone)
      fun dir _ hdir hloc _ => ⟨dir, hfind.trans hdir, hloc⟩

/-- In a sound state with room behind every record, a direct `Get` reports the record. -/
theorem Sound.answer_eq (opt : Options) (h : db.Sound L)
    (hroom : ∀ id, totalSize (L id) < kMaxFileBytes) :
    db.answer opt key = some (replyTo opt (db.recordOf key)) := by
  rcases hfind : db.find key with _ | dir
  · rw [answer, handleGet_none hfind, recordOf_of_none hfind]
    rfl
  · obtain ⟨e, hloc, -⟩ := h.pointed key dir hfind
    obtain ⟨o, rest, hread, -⟩ := h.readDirectly_eq opt hfind hloc ReadBuffer.empty
    have hend : dir.loc.offset + e.size < kMaxFileBytes := hloc.end_le.trans_lt (hroom dir.loc.id)
    rw [answer, handleGet, hfind]
    simp only [directlyRead, Bool.not_false, Bool.true_or, if_true, hread, if_pos hend,
      Option.map_some, h.recordOf_eq hfind hloc]
    rfl

/-- No record is reported as if its key were absent. -/
theorem replyTo_eq_kNotFound {record : Option Entry}
    (h : (replyTo opt record).status = .kNotFound) : record = none := by
  cases record with
  | none => rfl
  | some e =>
    simp only [replyTo, Option.elim_some, replyOf] at h
    split_ifs at h

end DBImpl

/-- A record that does not fill its file leaves room. -/
theorem FileManager.Holds.room_add {fm : FileManager} (h : fm.Holds L)
    (hroom : ∀ id, totalSize (L id) < kMaxFileBytes) (hfills : ¬ fm.Fills e) (hs : e.Storable)
    (id : ℕ) : totalSize (L.add (fm.nextLoc e).id e id) < kMaxFileBytes := by
  by_cases hid : id = (fm.nextLoc e).id
  · -- The end of the record is the end of the file.
    have hfits := ((h.appended hs).files (fm.nextLoc e).id).fits
    have hoff : (fm.nextLoc e).offset = totalSize (L (fm.nextLoc e).id) :=
      congrArg Location.offset h.nextLoc_eq
    have hne : (fm.nextLoc e).offset + e.size ≠ kMaxFileBytes := hfills
    rw [Log.add, Function.update_self, totalSize_concat] at hfits
    rw [hid, Log.add, Function.update_self, totalSize_concat]
    exact lt_of_le_of_ne hfits (hoff ▸ hne)
  · rw [Log.add, Function.update_of_ne hid]
    exact hroom id

namespace DBImpl.Sound

variable {db db' : DBImpl}

/-- With room behind every record, the recovery sees every record of a registered file. -/
theorem readable_iff (h : db.Sound L) (hroom : ∀ id, totalSize (L id) < kMaxFileBytes)
    {loc : Location} : db.fileManager.Readable loc e ↔
      loc.id ∈ db.fileManager.metadata.files ∧ Located L loc e := by
  have hlog : db.fileManager.log = L := h.holds.log_eq
  refine ⟨fun hr => ⟨hr.1, hlog ▸ hr.2.1⟩, fun ⟨hmem, hloc⟩ => ⟨hmem, hlog.symm ▸ hloc, ?_⟩⟩
  exact Or.inr (hloc.end_le.trans_lt (hroom loc.id))

/-- Then another process opens the database, and its index reflects the registered records. -/
theorem exists_opened (opt : Options) (name : Bytes) (h : db.Sound L)
    (hroom : ∀ id, totalSize (L id) < kMaxFileBytes)
    (hname : db.fileManager.metadata.name.length < 2 ^ 16) :
    ∃ db' rest, openDb opt .sound name db.fileManager.disk ReadBuffer.empty =
        some (.kOk, db', rest) ∧
      db'.Reopened opt db.fileManager.disk (L.restrict db.fileManager.metadata.files) ∧
      db'.fileManager.metadata = db.fileManager.metadata ∧
      Reflects recordView
        {r | r.1.id ∈ db.fileManager.metadata.files ∧ Located L r.1 r.2} db'.find := by
  have hdisk := FileManager.disk_holds h.holds h.indexed h.registered hname
  obtain ⟨db', rest, hopen, hre, o, hfm⟩ := hdisk.openDb_eq opt name ReadBuffer.empty
  refine ⟨db', rest, hopen, hre, by rw [hfm, hdisk.openActive_eq]; rfl, ?_⟩
  -- What the recovery replays are all registered records.
  have hset : {r : Location × Entry | r ∈ (L.restrict db.fileManager.metadata.files).recovered
      db.fileManager.disk.indexFiles r.1.id} =
        {r | r.1.id ∈ db.fileManager.metadata.files ∧ Located L r.1 r.2} := by
    ext r
    exact (h.holds.readable_iff).trans (h.readable_iff hroom)
  exact hset ▸ hre.recovers.reflects

end DBImpl.Sound

namespace Session

variable {s s' : Session} {a : Action} {L' : Log}

/-- Where a process dies. -/
inductive Death
  /-- Between two atomic blocks. -/
  | between
  /-- In `Append`, when a new file is active and nothing is in it. -/
  | rolledOver
  /-- In `HandlePut(w)`, when the record is in its file and the index does not know it. -/
  | appended (w : Write)

/-- The files that the process leaves behind. -/
def filesAt (opt : Options) (s : Session) : Death → Option FileManager
  | .between => some s.db.fileManager
  | .rolledOver =>
    match FileManager.rollOver .sound s.db.fileManager.capture s.db.fileManager with
    | (.kOk, fileManager) => some fileManager
    | _ => none
  | .appended w =>
    if s.Quiescent then
      match DBImpl.prepare opt w s.db with
      | .error _ => none
      | .ok e =>
        match s.db.fileManager.append .sound e with
        | some (.kOk, _, fileManager) => some fileManager
        | _ => none
    else none

/-- A step of a session, or the death of its process. -/
inductive Fate
  | act (a : Action)
  | crash (d : Death)

/-- The process dies, and another one opens the database. -/
def crash (opt : Options) (name : Bytes) (s : Session) (d : Death) : Option Session :=
  (s.filesAt opt d).bind fun fileManager =>
    (DBImpl.openDb opt .sound name fileManager.disk ReadBuffer.empty).map
      fun (_, db, buffer) => { db, buffer, queue := [], compaction := .idle }

def fateStep (opt : Options) (name : Bytes) (s : Session) : Fate → Option Session
  | .act a => step opt s a
  | .crash d => s.crash opt name d

/-- These fates lead from a new database to state `s`. -/
def Survives (opt : Options) (name : Bytes) (fs : List Fate) (s : Session) : Prop :=
  ∃ s₀, fresh opt name = some s₀ ∧ Transition.Run (fateStep opt name) s₀ fs s

/-- The writes that were accepted, also by a process that died before it could tell. -/
def accepted (opt : Options) (fs : List Fate) : List Action :=
  fs.filterMap fun f =>
    match f with
    | .act (.write w) =>
      if kMaxFileBytes < (DBImpl.entryOf opt w).sizeOf then none else some (.write w)
    | .crash (.appended w) => some (.write w)
    | _ => none

@[simp] theorem accepted_write (w : Write) : accepted opt [.act (.write w)] =
    if kMaxFileBytes < (DBImpl.entryOf opt w).sizeOf then [] else [.write w] := by
  simp only [accepted, List.filterMap_cons, List.filterMap_nil]
  split_ifs <;> rfl

@[simp] theorem accepted_appended (w : Write) :
    accepted opt [.crash (.appended w)] = [.write w] := rfl

/-- The record that is appended next ends before its file does, and the active file is not
removed. -/
def EndsInside (opt : Options) (s : Session) : Action → Prop
  | .write w =>
    (DBImpl.entryOf opt w).size ≤ kMaxFileBytes →
      ¬ s.db.fileManager.Fills (DBImpl.entryOf opt w)
  | .block =>
    match s.compaction with
    | .append _ _ next => ¬ s.db.fileManager.Fills next
    | .finish id => id ≠ s.db.fileManager.activeFileId
    | _ => True
  | _ => True

/-- Records are within the limits of their header and end before their file does, the file
ids do not run out, and the active file is not removed. -/
def Roomy (opt : Options) (s : Session) : Fate → Prop
  | .act a => Within opt s a ∧ EndsInside opt s a
  | .crash .between => True
  | .crash .rolledOver => s.db.fileManager.activeFileId + 1 < 2 ^ 32
  | .crash (.appended w) => Within opt s (.write w) ∧ EndsInside opt s (.write w)

instance (s : Session) : (a : Action) → Decidable (EndsInside opt s a)
  | .write w => inferInstanceAs (Decidable (_ → ¬ s.db.fileManager.Fills (DBImpl.entryOf opt w)))
  | .block =>
    match h : s.compaction with
    | .append _ _ next =>
      decidable_of_iff (¬ s.db.fileManager.Fills next) (by simp only [EndsInside, h])
    | .finish id =>
      decidable_of_iff (id ≠ s.db.fileManager.activeFileId) (by simp only [EndsInside, h])
    | .idle | .start _ | .mark _ | .scan _ _ | .check _ _ _ _ | .install _ _ _ _ =>
      .isTrue (by simp only [EndsInside, h])
  | .get _ _ | .compact | .task _ => .isTrue trivial

instance (s : Session) : (f : Fate) → Decidable (Roomy opt s f)
  | .act a => inferInstanceAs (Decidable (Within opt s a ∧ EndsInside opt s a))
  | .crash .between => .isTrue trivial
  | .crash .rolledOver => inferInstanceAs (Decidable (_ < _))
  | .crash (.appended w) =>
    inferInstanceAs (Decidable (Within opt s (.write w) ∧ EndsInside opt s (.write w)))

/-- What holds all along a run that leaves room behind every record. -/
structure Durable (opt : Options) (name : Bytes) (s : Session) (L : Log) : Prop where
  inv : Inv opt s L
  newest : Newest s L
  copying : Copying s L
  name : s.db.fileManager.metadata.name = name
  room : ∀ id, totalSize (L id) < kMaxFileBytes

namespace Durable

theorem fresh (h : Session.fresh opt name = some s) : Durable opt name s fun _ => [] := by
  obtain ⟨hdb, -, hidle⟩ := fresh_db h
  refine ⟨Inv.fresh h, Newest.fresh h, Copying.of_idle hidle, ?_, fun _ => ?_⟩
  · rw [hdb]
    exact MetadataManager.createFile_name
  · rw [kMaxFileBytes]
    exact Nat.zero_lt_succ _

/-- A record that does not fill its file leaves room. -/
theorem room_add (h : Durable opt name s L) (hfills : ¬ s.db.fileManager.Fills e)
    (hs : e.Storable) : ∀ id, totalSize (L.add (s.nextLoc e).id e id) < kMaxFileBytes :=
  h.inv.sound.holds.room_add h.room hfills hs

/-- No live record ends at the end of its file. -/
theorem not_liveAtEnd (h : Durable opt name s L) (id : ℕ) : ¬ LiveAtEnd s.db id := by
  rintro ⟨key, dir, hfind, -, hend⟩
  obtain ⟨e, hloc, -, -, hsize⟩ := h.inv.sound.pointed key dir hfind
  have := hloc.end_le.trans_lt (h.room dir.loc.id)
  omega

/-- So no `Get` hides a record. -/
theorem hiddenRead_eq_false (h : Durable opt name s L) (use_read_cache : Bool) (key : Key) :
    s.db.hiddenRead opt use_read_cache key = false := by
  rw [DBImpl.hiddenRead]
  split
  · rfl
  · next dir hfind =>
    rw [Bool.and_eq_false_iff, decide_eq_false_iff_not]
    exact Or.inr fun hend => h.not_liveAtEnd dir.loc.id ⟨key, dir, hfind, rfl, hend⟩

/-- No file is removed that a live record ends. -/
theorem removal (h : Durable opt name s L) (hg : EndsInside opt s a) : Removal s a := by
  cases a with
  | block =>
    simp only [Removal, EndsInside] at hg ⊢
    split
    · next id hc =>
      rw [hc] at hg
      exact ⟨hg, h.not_liveAtEnd id⟩
    · trivial
  | _ => trivial

theorem of_effect (h : Durable opt name s L) (hinside : EndsInside opt s a)
    (he : Effect opt s L a s' L') (hstep : Session.step opt s a = some s') :
    Durable opt name s' L' := by
  refine ⟨h.inv.step he (h.removal hinside), h.newest.step h.inv he,
    h.copying.step h.inv he hstep, he.name.trans h.name, ?_⟩
  cases he with
  | write hidle hs hwrap => exact h.room_add (hinside hs.size) hs
  | append hc hwrap hs =>
    simp only [EndsInside, hc] at hinside
    exact h.room_add hinside hs
  | _ => exact h.room

theorem step (h : Durable opt name s L) (hg : Roomy opt s (.act a))
    (hstep : Session.step opt s a = some s') :
    ∃ L', Effect opt s L a s' L' ∧ Durable opt name s' L' := by
  obtain ⟨hwithin, hinside⟩ := hg
  obtain ⟨L', he⟩ := h.inv.effect hwithin hstep
  exact ⟨L', he, h.of_effect hinside he hstep⟩

/-- A write of a record that is not too long. -/
theorem exists_write {w : Write} (h : Durable opt name s L) (hidle : s.Quiescent)
    (hg : Roomy opt s (.act (.write w))) (hsize : (DBImpl.entryOf opt w).size ≤ kMaxFileBytes) :
    ∃ s', Session.step opt s (.write w) = some s' ∧ s'.Quiescent ∧
      s'.db = (DBImpl.updateIndex opt w (s.nextLoc (DBImpl.entryOf opt w))
        (s.appended (DBImpl.entryOf opt w))).2 ∧
      Effect opt s L (.write w) s'
        (L.add (s.nextLoc (DBImpl.entryOf opt w)).id (DBImpl.entryOf opt w)) ∧
      Durable opt name s' (L.add (s.nextLoc (DBImpl.entryOf opt w)).id (DBImpl.entryOf opt w)) := by
  obtain ⟨⟨hrep, hwrap⟩, hinside⟩ := hg
  have hs := DBImpl.entryOf_storable hrep.key hsize
  have hstep : Session.step opt s (.write w) = some { s with
      db := (DBImpl.updateIndex opt w (s.nextLoc (DBImpl.entryOf opt w))
        (s.appended (DBImpl.entryOf opt w))).2 } := by
    rw [Session.step, if_pos hidle, h.inv.sound.handlePut_eq hs (hwrap hsize)]
    rfl
  have he := Effect.write (L := L) hidle hs (hwrap hsize)
  exact ⟨_, hstep, hidle, rfl, he, h.of_effect hinside he hstep⟩

/-- A file manager that has rolled over, and appended nothing yet. -/
theorem rolled (h : Durable opt name s L) (hwrap : s.db.fileManager.activeFileId + 1 < 2 ^ 32) :
    Durable opt name
      { s with db := { s.db with fileManager := s.db.fileManager.rolled } } L := by
  have hsound := h.inv.sound
  have hfresh := (hsound.holds.fresh _ (Nat.lt_succ_self _)).2
  have hfiles : s.db.fileManager.metadata.files ⊆ s.db.fileManager.rolled.metadata.files := by
    intro id hid
    simp only [FileManager.rolled, MetadataManager.createFile_files, Finset.mem_insert]
    exact Or.inr hid
  refine ⟨⟨?_, h.inv.written, ?_⟩, ?_, h.copying, ?_, h.room⟩
  · exact hsound.rolled hwrap
  · exact h.inv.scans.mono
      { records := fun _ => ⟨[], (List.append_nil _).symm⟩
        live := fun loc hl => Or.inl hl
        pend := fun _ hp => hp.elim
        files := hfiles } fun _ _ _ hl _ => hl
  · -- The new file has no records.
    intro key dir hfind loc x hmem hloc hkey
    simp only [FileManager.rolled, MetadataManager.createFile_files, Finset.mem_insert] at hmem
    rcases hmem with hid | hmem
    · have := hloc.mem
      rw [hid, hfresh] at this
      cases this
    · exact h.newest key dir hfind loc x hmem hloc hkey
  · simp only [FileManager.rolled, MetadataManager.createFile_name]
    exact h.name

/-- The recovery sees every record of a registered file. -/
theorem readable_iff (h : Durable opt name s L) {loc : Location} :
    s.db.fileManager.Readable loc e ↔
      loc.id ∈ s.db.fileManager.metadata.files ∧ Located L loc e :=
  h.inv.sound.readable_iff h.room

/-- Another process opens the database, and its index reflects the registered records. -/
theorem exists_reopened (h : Durable opt name s L) (hname : name.length < 2 ^ 16) :
    ∃ db rest, DBImpl.openDb opt .sound name s.db.fileManager.disk ReadBuffer.empty =
        some (.kOk, db, rest) ∧
      db.Reopened opt s.db.fileManager.disk (L.restrict s.db.fileManager.metadata.files) ∧
      db.fileManager.metadata = s.db.fileManager.metadata ∧
      Reflects recordView
        {r | r.1.id ∈ s.db.fileManager.metadata.files ∧ Located L r.1 r.2} db.find :=
  h.inv.sound.exists_opened opt name h.room (h.name.symm ▸ hname)

/-- The state that another process starts from. -/
theorem of_reopened {db db' : DBImpl} (rest : ReadBuffer)
    (hwritten : L.Written opt) (hroom : ∀ id, totalSize (L id) < kMaxFileBytes)
    (hname : db.fileManager.metadata.name = name)
    (hre : db'.Reopened opt db.fileManager.disk (L.restrict db.fileManager.metadata.files))
    (hmetadata : db'.fileManager.metadata = db.fileManager.metadata)
    (hreflects : Reflects recordView
      {r | r.1.id ∈ db.fileManager.metadata.files ∧ Located L r.1 r.2} db'.find) :
    Durable opt name { db := db', buffer := rest, queue := [], compaction := .idle }
        (L.restrict db.fileManager.metadata.files) ∧ db'.Tombstoned := by
  have hdurable : Durable opt name { db := db', buffer := rest, queue := [], compaction := .idle }
      (L.restrict db.fileManager.metadata.files) := by
    refine ⟨⟨hre.sound, ?_, trivial⟩, ?_, trivial, by rw [hmetadata]; exact hname, fun id => ?_⟩
    · intro id e he
      simp only [Log.restrict] at he
      split_ifs at he
      · exact hwritten id e he
      · cases he
    · intro key dir hfind loc e _ hloc hkey
      obtain ⟨r, -, -, -, rfl, hmax⟩ := hreflects.live key dir hfind
      exact Or.inl (hmax (loc, e) (located_restrict_iff.mp hloc) hkey)
    · rw [Log.restrict]
      split_ifs
      · exact hroom id
      · exact (hroom id).trans_le' (Nat.zero_le _)
  refine ⟨hdurable, fun loc e hread htype hfind => ?_⟩
  have hmem := located_restrict_iff.mp (hdurable.readable_iff.mp hread).2
  obtain ⟨r, hr, hkey, hsets, hlt⟩ := hreflects.dead e.key hfind (loc, e) hmem rfl htype
  refine ⟨r.1, r.2, hdurable.readable_iff.mpr ⟨?_, located_restrict_iff.mpr hr⟩, hkey,
    (hre.sound.storable (located_restrict_iff.mpr hr)).type.resolve_left hsets, hlt⟩
  exact hmetadata ▸ hr.1

theorem reopened {db : DBImpl} (rest : ReadBuffer) (h : Durable opt name s L)
    (hre : db.Reopened opt s.db.fileManager.disk (L.restrict s.db.fileManager.metadata.files))
    (hmetadata : db.fileManager.metadata = s.db.fileManager.metadata)
    (hreflects : Reflects recordView
      {r | r.1.id ∈ s.db.fileManager.metadata.files ∧ Located L r.1 r.2} db.find) :
    Durable opt name { db, buffer := rest, queue := [], compaction := .idle }
        (L.restrict s.db.fileManager.metadata.files) ∧ db.Tombstoned :=
  of_reopened rest h.inv.written h.room h.name hre hmetadata hreflects

/-- A record of a live key that is not older than the live one is that one, or its copy. -/
theorem eq_of_le (h : Durable opt name s L) (hfind : s.db.find key = some dir)
    (hloc : Located L dir.loc e) {loc : Location} {x : Entry}
    (hmem : loc.id ∈ s.db.fileManager.metadata.files) (hx : Located L loc x) (hkey : x.key = key)
    (hle : dir.loc ≤ loc) : x = e := by
  rcases h.newest key dir hfind loc x hmem hx hkey with hge | ⟨id, it, next, hc⟩
  · obtain rfl := le_antisymm hle hge
    exact hx.unique hloc
  · -- The copy that is to be installed has the bytes of the live record.
    have hscans := h.inv.scans
    have hcopying := h.copying
    unfold Copying at hcopying
    rw [hc] at hscans hcopying
    obtain ⟨-, -, -, -, -, hcopy, -⟩ := hscans
    obtain ⟨old, hold, -, hold', -⟩ := hcopying
    obtain rfl := hx.unique hcopy
    rw [hkey, hfind, Option.some_inj] at hold
    exact hold'.unique (hold ▸ hloc)

/-- If another process finds no key that was absent, then behind each record of an absent key
there was a tombstone. -/
theorem tombstoned_of_reopened {db : DBImpl} (h : Durable opt name s L)
    (hre : db.Reopened opt s.db.fileManager.disk (L.restrict s.db.fileManager.metadata.files))
    (hreflects : Reflects recordView
      {r | r.1.id ∈ s.db.fileManager.metadata.files ∧ Located L r.1 r.2} db.find)
    (hnone : ∀ key, s.db.recordOf key = none → db.recordOf key = none) : s.db.Tombstoned := by
  intro loc e hread htype hfind
  have habsent : db.find e.key = none := by
    rw [← Option.not_isSome_iff_eq_none, ← hre.sound.recordOf_isSome,
      hnone e.key (DBImpl.recordOf_of_none hfind)]
    simp
  obtain ⟨r, hr, hkey, hsets, hlt⟩ :=
    hreflects.dead e.key habsent (loc, e) (h.readable_iff.mp hread) rfl htype
  exact ⟨r.1, r.2, h.readable_iff.mpr hr, hkey,
    (h.inv.sound.storable hr.2).type.resolve_left hsets, hlt⟩

/-- If behind each record of an absent key there is a tombstone, then another process finds
the same records. -/
theorem recordOf_reopened {db : DBImpl} (h : Durable opt name s L)
    (hre : db.Reopened opt s.db.fileManager.disk (L.restrict s.db.fileManager.metadata.files))
    (hreflects : Reflects recordView
      {r | r.1.id ∈ s.db.fileManager.metadata.files ∧ Located L r.1 r.2} db.find)
    (htomb : s.db.Tombstoned) (key : Key) : db.recordOf key = s.db.recordOf key := by
  have hsound := h.inv.sound
  refine hsound.recordOf_congr hre.sound (fun hfind => ?_) fun dir e hfind hloc hkey => ?_
  · -- The newest record of an absent key is a tombstone.
    by_contra hne
    obtain ⟨dir', hfind'⟩ := Option.ne_none_iff_exists'.mp hne
    obtain ⟨r, hr, rfl, hsets, -, hmax⟩ := hreflects.live key dir' hfind'
    obtain ⟨loc', e', hread, hkey', -, hlt⟩ :=
      htomb r.1 r.2 (h.readable_iff.mpr hr) hsets hfind
    exact absurd (hmax (loc', e') (h.readable_iff.mp hread) hkey') (not_le.mpr hlt)
  · obtain ⟨e', hloc', -, htype, -⟩ := hsound.pointed key dir hfind
    obtain rfl := hloc.unique hloc'
    have hmem := hsound.kept key dir hfind
    rcases hfind' : db.find key with _ | dir'
    · obtain ⟨r, hr, hkey', hsets, hlt⟩ :=
        hreflects.dead key hfind' (dir.loc, e) ⟨hmem, hloc⟩ hkey htype
      rw [recordView_sets, h.eq_of_le hfind hloc hr.1 hr.2 hkey' hlt.le] at hsets
      exact absurd htype hsets
    · obtain ⟨r, hr, hkey', -, rfl, hmax⟩ := hreflects.live key dir' hfind'
      have hle := hmax (dir.loc, e) ⟨hmem, hloc⟩ hkey
      obtain rfl := h.eq_of_le hfind hloc hr.1 hr.2 hkey' hle
      exact ⟨_, rfl, located_restrict_iff.mpr hr⟩

/-- Dying leaves the files of a state that the process could have gone on from: the same one,
the one after a roll-over, or the one after the write. -/
theorem exists_filesAt {d : Death} {fm : FileManager} (h : Durable opt name s L)
    (hg : Roomy opt s (.crash d)) (hfiles : s.filesAt opt d = some fm) :
    ∃ t L', t.db.fileManager = fm ∧ Durable opt name t L' ∧
      ((L' = L ∧ t.db.find = s.db.find ∧ (∀ w, d ≠ .appended w) ∧ ∀ loc e,
          t.db.fileManager.Readable loc e ↔ s.db.fileManager.Readable loc e) ∨
        ∃ w, d = .appended w ∧ (DBImpl.entryOf opt w).size ≤ kMaxFileBytes ∧
          Session.step opt s (.write w) = some t ∧ Effect opt s L (.write w) t L') := by
  cases d with
  | between =>
    obtain rfl := Option.some_inj.mp hfiles
    exact ⟨s, L, rfl, h, Or.inl ⟨rfl, rfl, by simp, fun _ _ => Iff.rfl⟩⟩
  | rolledOver =>
    rw [filesAt, h.inv.sound.holds.rollOver_capture hg, Option.some_inj] at hfiles
    refine ⟨_, L, hfiles, h.rolled hg, Or.inl ⟨rfl, rfl, by simp, fun loc e => ?_⟩⟩
    rw [h.readable_iff, (h.rolled hg).readable_iff]
    simp only [FileManager.rolled, MetadataManager.createFile_files, Finset.mem_insert]
    constructor
    · rintro ⟨hmem, hloc⟩
      refine ⟨hmem.resolve_left fun hid => ?_, hloc⟩
      -- The new file has no records.
      have := hloc.mem
      rw [hid, (h.inv.sound.holds.fresh _ (Nat.lt_succ_self _)).2] at this
      cases this
    · rintro ⟨hmem, hloc⟩
      exact ⟨Or.inr hmem, hloc⟩
  | appended w =>
    obtain ⟨⟨hrep, hwrap⟩, hinside⟩ := hg
    simp only [filesAt] at hfiles
    split_ifs at hfiles with hidle
    rcases Nat.lt_or_ge kMaxFileBytes (DBImpl.entryOf opt w).size with hbig | hsize
    · -- A record that is refused is not appended.
      have hprep : DBImpl.prepare opt w s.db = .error .kNotSupported := by
        have hsizeOf : (DBImpl.entryOf opt w).sizeOf = (DBImpl.entryOf opt w).size :=
          u32_of_lt hrep.size
        simp [DBImpl.prepare, h.inv.sound.writable, hsizeOf, hbig]
      simp [hprep] at hfiles
    · have hs := DBImpl.entryOf_storable hrep.key hsize
      simp only [DBImpl.prepare_eq h.inv.sound.writable hs,
        h.inv.sound.holds.append_eq hs (hwrap hsize), Option.some.injEq] at hfiles
      obtain ⟨t, hstep, -, hdb, he, ht⟩ := h.exists_write hidle ⟨⟨hrep, hwrap⟩, hinside⟩ hsize
      have hfm : t.db.fileManager = s.db.fileManager.appended (DBImpl.entryOf opt w) := by
        rw [hdb, DBImpl.updateIndex_fileManager]
      exact ⟨t, _, hfm.trans hfiles, ht, Or.inr ⟨w, rfl, hsize, hstep, he⟩⟩

end Durable

end Session
end PedroDB
