import PedroDB.Recovery
import PedroDB.Session

/-!
# Restarts

A database is closed and opened again. The index that the recovery builds is the old one
exactly if the recovery sees every live record, and sees a tombstone behind every record
of a key that is absent.

## Main definitions

* `FileManager.log`, `FileManager.Readable` — the records of the data files, and those
  that the recovery sees
* `DBImpl.Newest` — every live record is the last one of its key
* `DBImpl.Seen`, `DBImpl.Tombstoned` — the conditions
* `DBImpl.valueOf` — the value that the index leads to
* `Session.Newest` — `DBImpl.Newest` along a run, which the copy of a compaction is ahead of

## Main results

* `Session.Newest.step` — one step
* `DBImpl.Sound.exists_reopened` — opening the database again
-/

namespace PedroDB

open LastWriter

variable [Platform] {opt : Options} {L : Log} {key : Key} {dir : Dir} {e : Entry}

namespace FileManager

variable {fm : FileManager} {loc : Location}

/-- The records of the data files, as the loop of `CreateFile` decodes them. -/
def log (fm : FileManager) : Log := fun id => unPackAll (fm.dataFiles id)

theorem Laid.log_eq (h : fm.Laid L) : fm.log = L := by
  funext id
  exact (h.files id).unPackAll_eq

/-- Record `e` stands at `loc`, in a registered file, where the recovery sees it. -/
def Readable (fm : FileManager) (loc : Location) (e : Entry) : Prop :=
  loc.id ∈ fm.metadata.files ∧ Located fm.log loc e ∧
    ((fm.indexFiles loc.id).isSome ∨ loc.offset + e.size < kMaxFileBytes)

theorem Laid.readable_iff (h : fm.Laid L) {r : Location × Entry} :
    r ∈ (L.restrict fm.metadata.files).recovered fm.indexFiles r.1.id ↔
      fm.Readable r.1 r.2 := by
  rw [Readable, h.log_eq]
  by_cases hid : r.1.id ∈ fm.metadata.files
  · unfold Log.recovered
    rw [Log.records_restrict hid]
    split_ifs with hindex
    · simp [Log.mem_records_iff, hid, hindex]
    · simp [Log.mem_records_iff, hid, hindex]
  · refine ⟨fun hr => ?_, fun hr => absurd hr.1 hid⟩
    have := (Log.mem_records_iff.mp (Log.recovered_subset r hr)).2
    exact absurd (located_restrict_iff.mp this).1 hid

end FileManager

namespace DBImpl

variable {db : DBImpl}

/-- Every live record is the last one of its key in the registered files. -/
def Newest (db : DBImpl) (L : Log) : Prop :=
  ∀ key dir, db.find key = some dir → ∀ loc e, loc.id ∈ db.fileManager.metadata.files →
    Located L loc e → e.key = key → loc ≤ dir.loc

/-- The recovery sees every live record. -/
def Seen (db : DBImpl) : Prop :=
  ∀ key dir, db.find key = some dir → ∃ e, db.fileManager.Readable dir.loc e

/-- Behind every record of an absent key that the recovery sees, it sees a tombstone. -/
def Tombstoned (db : DBImpl) : Prop :=
  ∀ loc e, db.fileManager.Readable loc e → e.type = .kSet → db.find e.key = none →
    ∃ loc' e', db.fileManager.Readable loc' e' ∧ e'.key = e.key ∧ e'.type = .kDelete ∧
      loc < loc'

/-- The value of a key, decoded at the location that the index has for it. -/
def valueOf (db : DBImpl) (key : Key) : Option Bytes :=
  (db.find key).bind fun dir =>
    (Entry.unPack ((FileManager.readableBuffer
      (db.fileManager.dataFiles dir.loc.id)).retrieve dir.loc.offset)).1.map Entry.value

/-- The index reflects the readable records exactly under these conditions. -/
theorem Sound.reflects_iff (h : db.Sound L) (hnewest : db.Newest L) :
    Reflects recordView {r | db.fileManager.Readable r.1 r.2} db.find ↔
      db.Seen ∧ db.Tombstoned := by
  have hlocated : ∀ {loc e}, db.fileManager.Readable loc e → Located L loc e := fun hr =>
    h.holds.log_eq ▸ hr.2.1
  constructor
  · intro hreflects
    refine ⟨fun key dir hfind => ?_, fun loc e hread htype hfind => ?_⟩
    · obtain ⟨r, hr, -, -, rfl, -⟩ := hreflects.live key dir hfind
      exact ⟨r.2, hr⟩
    · obtain ⟨r, hr, hkey, hsets, hlt⟩ := hreflects.dead e.key hfind (loc, e) hread rfl htype
      exact ⟨r.1, r.2, hr, hkey, (h.storable (hlocated hr)).type.resolve_left hsets, hlt⟩
  · rintro ⟨hlive, hdead⟩
    refine ⟨fun key dir hfind => ?_, fun key hfind r hr hkey hsets => ?_⟩
    · obtain ⟨e, hloc, hkey, htype, hsize⟩ := h.pointed key dir hfind
      obtain ⟨e', hread⟩ := hlive key dir hfind
      obtain rfl := (hlocated hread).unique hloc
      refine ⟨(dir.loc, e'), hread, hkey, htype, ?_, fun r hr hkey' => ?_⟩
      · rw [recordView_entry, ← hsize]
      · exact hnewest key dir hfind r.1 r.2 hr.1 (hlocated hr) hkey'
    · subst hkey
      obtain ⟨loc', e', hread, hkey', htype, hlt⟩ := hdead r.1 r.2 hr hsets hfind
      exact ⟨(loc', e'), hread, hkey', by simp [htype], hlt⟩

/-- The value of a live key is that of its record. -/
theorem Sound.valueOf_eq (h : db.Sound L) (hfind : db.find key = some dir)
    (hloc : Located L dir.loc e) : db.valueOf key = some e.value := by
  rw [valueOf, hfind, Option.bind_some, (h.holds.files dir.loc.id).unPack_eq hloc]
  rfl

theorem Sound.valueOf_isSome (h : db.Sound L) :
    (db.valueOf key).isSome ↔ (db.find key).isSome := by
  rcases hfind : db.find key with _ | dir
  · simp [valueOf, hfind]
  · obtain ⟨e, hloc, -⟩ := h.pointed key dir hfind
    simp [h.valueOf_eq hfind hloc]

/-- A database that is closed opens again. Its index is the same one exactly if every live
record is seen, and every deletion. -/
theorem Sound.exists_reopened (opt : Options) (name : Bytes) (buffer : ReadBuffer)
    (h : db.Sound L) (hnewest : db.Newest L)
    (hname : db.fileManager.metadata.name.length < 2 ^ 16) :
    ∃ db' rest, openDb opt .sound name db.fileManager.disk buffer = some (.kOk, db', rest) ∧
      db'.Reopened opt db.fileManager.disk (L.restrict db.fileManager.metadata.files) ∧
      db'.fileManager.metadata = db.fileManager.metadata ∧
      Reflects recordView {r | db.fileManager.Readable r.1 r.2} db'.find ∧
      ((∀ key, db'.find key = db.find key) ↔ db.Seen ∧ db.Tombstoned) := by
  have hdisk := FileManager.disk_holds h.holds h.indexed h.registered hname
  obtain ⟨db', rest, hopen, hre, o, hfm⟩ := hdisk.openDb_eq opt name buffer
  -- What the recovery replays is what is readable.
  have hset : {r : Location × Entry | r ∈ (L.restrict db.fileManager.metadata.files).recovered
      db.fileManager.disk.indexFiles r.1.id} = {r | db.fileManager.Readable r.1 r.2} := by
    ext r
    exact h.holds.readable_iff
  have hreflects := hre.recovers.reflects
  rw [hset] at hreflects
  refine ⟨db', rest, hopen, hre, ?_, hreflects, ?_⟩
  · rw [hfm, hdisk.openActive_eq]
    rfl
  · rw [← h.reflects_iff hnewest]
    constructor
    · intro hsame
      rwa [← show db'.find = db.find from funext hsame]
    · intro hold
      -- Only one index reflects the readable records.
      refine congrFun (hreflects.unique (fun r hr r' hr' hpos => Prod.ext hpos ?_) hold)
      have hloc : Located L r.1 r.2 := h.holds.log_eq ▸ hr.2.1
      have hloc' : Located L r'.1 r'.2 := h.holds.log_eq ▸ hr'.2.1
      exact hloc.unique ((show r.1 = r'.1 from hpos) ▸ hloc')

end DBImpl

namespace Session

variable {s s' : Session} {a : Action} {L' : Log}

/-- The database keeps its name. -/
theorem Effect.name (he : Effect opt s L a s' L') :
    s'.db.fileManager.metadata.name = s.db.fileManager.metadata.name := by
  cases he with
  | refused => rfl
  | write => rw [DBImpl.updateIndex_fileManager, FileManager.appended_name]
  | get _ hdb => rw [hdb]
  | compact => rfl
  | read _ _ hdb => rw [hdb]
  | append => exact FileManager.appended_name
  | install => rw [DBImpl.compactInstall_fileManager]
  | finish =>
    simp only [DBImpl.compactFinish]
    rw [FileManager.removeFile_eq]
    exact MetadataManager.deleteFile_name
  | task hrun =>
    obtain ⟨_, _, rfl⟩ := FileManager.runTask_eq hrun
    rfl

/-- Every live record is the last one of its key in the registered files, but for the
copy that is to be installed. -/
def Newest (s : Session) (L : Log) : Prop :=
  ∀ key dir, s.db.find key = some dir → ∀ loc e, loc.id ∈ s.db.fileManager.metadata.files →
    Located L loc e → e.key = key →
      loc ≤ dir.loc ∨ ∃ id it next, s.compaction = .install id it next loc

namespace Newest

theorem fresh {name : Bytes} (h : Session.fresh opt name = some s) : Newest s fun _ => [] := by
  intro key dir hfind
  rw [(fresh_db h).1] at hfind
  simp [DBImpl.find, newDb, DBImpl.create] at hfind

omit [Platform] in
theorem idle (h : Newest s L) (hidle : s.Quiescent) : s.db.Newest L := by
  intro key dir hfind loc e hmem hloc hkey
  refine (h key dir hfind loc e hmem hloc hkey).resolve_right ?_
  rintro ⟨id, it, next, hc⟩
  rw [hidle.2] at hc
  cases hc

omit [Platform] in
/-- Steps that change neither index nor log. -/
theorem congr (h : Newest s L) (hfind : s'.db.find = s.db.find)
    (hfiles : s'.db.fileManager.metadata.files ⊆ s.db.fileManager.metadata.files)
    (hnot : ∀ id it next loc, s.compaction ≠ .install id it next loc) : Newest s' L := by
  intro key dir hdir loc e hmem hloc hkey
  rw [hfind] at hdir
  refine Or.inl ((h key dir hdir loc e (hfiles hmem) hloc hkey).resolve_right ?_)
  rintro ⟨id, it, next, hc⟩
  exact hnot id it next loc hc

/-- One step. -/
theorem step (h : Newest s L) (hinv : Inv opt s L) (he : Effect opt s L a s' L') :
    Newest s' L' := by
  -- Between two calls no copy waits for its index update.
  have hidle : s.Quiescent → ∀ id it next loc, s.compaction ≠ .install id it next loc := by
    intro hq id it next loc hc
    rw [hq.2] at hc
    cases hc
  cases he with
  | refused => exact h
  | @write w hq hs hwrap =>
    intro key dir hfind loc e hmem hloc hkey
    rw [DBImpl.updateIndex_fileManager] at hmem
    rw [DBImpl.find_updateIndex] at hfind
    refine Or.inl ?_
    -- The record just written is the newest one.
    rcases located_appended hinv.sound.holds hmem hloc with ⟨rfl, rfl⟩ | ⟨hmem', hloc'⟩
    · rw [if_pos (show key = w.key from hkey.symm)] at hfind
      split_ifs at hfind
      exact (congrArg Dir.loc (Option.some_inj.mp hfind)).le
    · split_ifs at hfind with hk hv
      · obtain rfl := Option.some_inj.mp hfind
        exact (lt_nextLoc hinv.sound hmem' hloc').le
      · exact h.idle hq key dir hfind loc e hmem' hloc' hkey
  | get hq hdb => exact h.congr (by rw [hdb]; rfl) (by rw [hdb]) (hidle hq)
  | compact hq => exact h.congr rfl (Finset.Subset.refl _) (hidle hq)
  | read hreading _ hdb =>
    refine h.congr (by rw [hdb]; rfl) (by rw [hdb]) ?_
    rintro id it next loc hc
    simp [Reading, hc] at hreading
  | @append id it next hc =>
    intro key dir hfind loc e hmem hloc hkey
    rcases located_appended hinv.sound.holds hmem hloc with ⟨rfl, rfl⟩ | ⟨hmem', hloc'⟩
    · -- The copy is newer than what the index leads to, until it is installed.
      exact Or.inr ⟨id, it, e, rfl⟩
    · refine Or.inl ((h key dir hfind loc e hmem' hloc' hkey).resolve_right ?_)
      rintro ⟨_, _, _, hc'⟩
      rw [hc] at hc'
      cases hc'
  | @install id it next copy hc =>
    intro key dir hfind loc e hmem hloc hkey
    rw [DBImpl.compactInstall_fileManager] at hmem
    rw [DBImpl.find_compactInstall] at hfind
    refine Or.inl ?_
    have hscans := hinv.scans
    rw [hc] at hscans
    obtain ⟨-, -, -, -, -, hcopy, -, -⟩ := hscans
    split_ifs at hfind with hcond
    · -- The index moves to the copy.
      obtain ⟨rfl, old, hold, hlt⟩ := hcond
      obtain rfl := Option.some_inj.mp hfind
      rcases h _ old hold loc e hmem hloc hkey with hle | ⟨_, _, _, hc'⟩
      · exact hle.trans hlt.le
      · rw [hc] at hc'
        cases hc'
        exact le_rfl
    · rcases h key dir hfind loc e hmem hloc hkey with hle | ⟨_, _, _, hc'⟩
      · exact hle
      · rw [hc] at hc'
        -- The copy stays dead, since the index leads to a newer record.
        cases hc'
        obtain rfl := hloc.unique hcopy
        exact not_lt.mp fun hlt => hcond ⟨hkey.symm, dir, hfind, hlt⟩
  | finish hc =>
    refine h.congr rfl ?_ fun _ _ _ _ hc' => by rw [hc] at hc'; cases hc'
    simp only [DBImpl.compactFinish, FileManager.removeFile_files]
    exact Finset.erase_subset _ _
  | task hrun =>
    obtain ⟨_, _, rfl⟩ := FileManager.runTask_eq hrun
    exact h

end Newest

/-! ### Runs with restarts -/

/-- A step of a session, or a restart of the process. -/
inductive Event
  | act (a : Action)
  | restart

/-- The process stops and another one opens the database. -/
def restart (opt : Options) (name : Bytes) (s : Session) : Option Session :=
  if s.Quiescent then
    (DBImpl.openDb opt .sound name s.db.fileManager.disk ReadBuffer.empty).map
      fun (_, db, buffer) => { db, buffer, queue := [], compaction := .idle }
  else none

def eventStep (opt : Options) (name : Bytes) (s : Session) : Event → Option Session
  | .act a => step opt s a
  | .restart => s.restart opt name

/-- The events lead from a new database to state `s`. -/
def Lives (opt : Options) (name : Bytes) (es : List Event) (s : Session) : Prop :=
  ∃ s₀, fresh opt name = some s₀ ∧ Transition.Run (eventStep opt name) s₀ es s

/-- Every registered data file without index file has room behind its records. -/
def Unfilled (fm : FileManager) : Prop :=
  ∀ id ∈ fm.metadata.files, fm.indexFiles id = none → totalSize (fm.log id) < kMaxFileBytes

instance (fm : FileManager) : Decidable (Unfilled fm) :=
  inferInstanceAs (Decidable (∀ id ∈ fm.metadata.files, _ → _))

/-- Then the recovery sees every record. -/
theorem Unfilled.readable {fm : FileManager} {loc : Location} (h : Unfilled fm)
    (hmem : loc.id ∈ fm.metadata.files) (hloc : Located fm.log loc e) : fm.Readable loc e := by
  refine ⟨hmem, hloc, ?_⟩
  rcases hindex : fm.indexFiles loc.id with _ | bytes
  · exact Or.inr (hloc.end_le.trans_lt (h loc.id hmem hindex))
  · exact Or.inl rfl

/-- The registered records, one more being appended. -/
theorem restrict_appended (h : s.db.Sound L) (e : Entry) :
    (L.add (s.nextLoc e).id e).restrict (s.db.fileManager.appended e).metadata.files =
      (L.restrict s.db.fileManager.metadata.files).add (s.nextLoc e).id e := by
  have hactive := h.registered.active
  have hfresh := (h.holds.fresh (s.db.fileManager.activeFileId + 1) (Nat.lt_succ_self _)).2
  funext f
  unfold Session.nextLoc FileManager.nextLoc FileManager.appended
  split_ifs with hfits
  · by_cases hf : f = s.db.fileManager.activeFileId
    · subst hf
      simp [Log.restrict, Log.add, FileManager.addRecord, hactive]
    · simp [Log.restrict, Log.add, FileManager.addRecord, hf]
  · by_cases hf : f = s.db.fileManager.activeFileId + 1
    · subst hf
      simp [Log.restrict, Log.add, FileManager.addRecord, FileManager.rolled, hfresh]
    · simp [Log.restrict, Log.add, FileManager.addRecord, FileManager.rolled, hf]

theorem endOf_restrict (h : s.db.Sound L) (e : Entry) :
    (L.restrict s.db.fileManager.metadata.files).endOf (s.nextLoc e).id = s.nextLoc e := by
  refine Eq.trans ?_ h.holds.nextLoc_eq.symm
  unfold Log.endOf Log.restrict
  split_ifs with hmem
  · rfl
  · have hempty : L (s.nextLoc e).id = [] := by
      unfold Session.nextLoc FileManager.nextLoc at hmem ⊢
      split_ifs at hmem ⊢ with hfits
      · exact absurd h.registered.active hmem
      · exact (h.holds.fresh _ (Nat.lt_succ_self _)).2
    rw [hempty]

end Session

namespace DBImpl

/-- In a sound state the index points into the registered files. -/
theorem Sound.catalogued_restrict {db : DBImpl} (h : db.Sound L) :
    db.Catalogued (L.restrict db.fileManager.metadata.files).records where
  located := fun id r hr => (Log.mem_records_iff.mp hr).1
  sorted := Log.records_pairwise _
  pointed := by
    intro key dir hfind
    obtain ⟨r, hr, hrest⟩ := h.catalogued.pointed key dir hfind
    rw [Log.records_restrict (h.kept key dir hfind)]
    exact ⟨r, hr, hrest⟩

end DBImpl
end PedroDB
