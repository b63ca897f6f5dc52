import PedroDB.Compacting
import PedroDB.Concurrent
import PedroDB.Restart
import PedroDB.Rollover

/-!
# Records in flight

A writer appends its record in one section and updates the index in another, and a run of
`Compact(id)` checks, copies and installs a record in three. What the other threads do in
between moves no record that is in the log, but it may change what the index leads to.

## Main definitions

* `FileManager.Stores` — the data files hold the records of a log
* `FileManager.Extends` — a record was appended
* `Thread.Carries` — what a thread knows about the record it is busy with
* `Concurrent.Inv` — what holds in every state
* `Concurrent.Change` — what a step does to log, index and registered files

## Main results

* `FileManager.Stores.append_cases` — `Append`, whether or not new files open
* `Concurrent.Inv.change`, `Concurrent.Inv.step` — one step
* `Concurrent.Inv.run` — a run
-/

namespace PedroDB

open Framing Transition

section

variable [Platform] {opt : Options} {fm fm' : FileManager} {L L' : Log} {e x : Entry}
  {loc l : Location} {opens : OpenData}

/-! ### The records of the data files -/

namespace FileManager

/-- The data files hold the records of the log, whatever becomes of the index logs: if a new
file does not open, the active one has lost its index log. -/
def Stores (fm : FileManager) (L : Log) : Prop :=
  ({ fm with activeIndexLog := some fm.activeFileId } : FileManager).Holds L

theorem Holds.stores (h : fm.Holds L) : fm.Stores L :=
  ⟨⟨h.files, h.data, rfl, h.write⟩, h.fresh⟩

/-- A record was appended at `loc`, the active file being the last of those it needed. -/
structure Extends (fm : FileManager) (L : Log) (e : Entry) (loc : Location) (fm' : FileManager) :
    Prop where
  at_end : loc = L.endOf loc.id
  le_id : fm.activeFileId ≤ loc.id
  active : fm'.activeFileId = loc.id
  stores : fm'.Stores (L.add loc.id e)
  files : fm.metadata.files ⊆ fm'.metadata.files
  registered : ∀ j, fm.activeFileId < j → j ≤ loc.id → j ∈ fm'.metadata.files
  linked : ∀ j, (fm.dataFiles j).linked = true → (fm'.dataFiles j).linked = true

namespace Stores

/-- Only the data files and which of them is active matter. -/
theorem congr (h : fm.Stores L) (hfiles : fm'.dataFiles = fm.dataFiles)
    (hdata : fm'.activeDataFile = fm.activeDataFile)
    (hid : fm'.activeFileId = fm.activeFileId) : fm'.Stores L := by
  refine ⟨⟨fun id => hfiles ▸ h.files id, ?_, rfl, ?_⟩, fun id hlt => ?_⟩
  · exact (hdata.trans h.data).trans (congrArg some hid.symm)
  · exact (congrArg₂ (fun f id => (f id).writeIndex) hfiles hid).trans
      (h.write.trans (congrArg (fun id => totalSize (L id)) hid.symm))
  · rw [show ({ fm' with activeIndexLog := some fm'.activeFileId } : FileManager).dataFiles =
      fm.dataFiles from hfiles]
    exact h.fresh id (hid ▸ hlt)

theorem keeps (h : fm.Stores L) : fm.Keeps L := Holds.toLaid h

theorem data (h : fm.Stores L) : fm.activeDataFile = some fm.activeFileId := h.keeps.data

theorem files (h : fm.Stores L) (id : ℕ) : (fm.dataFiles id).Holds (L id) := h.keeps.files id

theorem log_eq (h : fm.Stores L) : fm.log = L := by
  funext id
  exact (h.files id).unPackAll_eq

theorem storable (h : fm.Stores L) (hloc : Located L loc e) : e.Storable :=
  (h.files loc.id).storable e hloc.mem

theorem id_le_active (h : fm.Stores L) (hloc : Located L loc e) : loc.id ≤ fm.activeFileId := by
  have hholds : ({ fm with activeIndexLog := some fm.activeFileId } : FileManager).Holds L := h
  exact hholds.id_le_active hloc

theorem removeFile (h : fm.Stores L) (id : ℕ) : (fm.removeFile id).Stores L := by
  have hremoved := Holds.removeFile h id
  rw [removeFile_eq] at hremoved ⊢
  exact hremoved

theorem runTask {i : ℕ} (h : fm.Stores L) (hrun : fm.runTask i = some fm') : fm'.Stores L := by
  obtain ⟨tasks, indexFiles, rfl⟩ := runTask_eq hrun
  exact h.congr rfl rfl rfl

end Stores

/-! ### `Append` -/

theorem Stores.addRecord (h : fm.Stores L) (hs : e.Storable) (hfits : fm.Fits e)
    (logs : ℕ → Bytes) :
    ({ FileManager.addRecord fm.activeFileId e fm with indexLogs := logs } : FileManager).Stores
      (L.add fm.activeFileId e) := by
  have hadd : ({ FileManager.addRecord fm.activeFileId e fm with
      activeIndexLog := some fm.activeFileId } : FileManager).Holds (L.add fm.activeFileId e) :=
    Holds.addRecord h hs hfits
  exact hadd.stores.congr rfl rfl rfl

theorem rolled_linked {fm : FileManager} (j : ℕ) (h : (fm.dataFiles j).linked = true) :
    (fm.rolled.dataFiles j).linked = true := by
  by_cases hj : j = fm.activeFileId + 1
  · subst hj
    simp only [rolled, Function.update_self]
  · simp only [rolled, Function.update_of_ne hj]
    exact h

/-- A new file, when it opens. -/
theorem Stores.rollOver_cases (h : fm.Stores L) (hwrap : fm.activeFileId + 1 < 2 ^ 32)
    (opens : OpenData) :
    (rollOver opens fm.capture fm).1 = .kOk ∧
      (rollOver opens fm.capture fm).2.dataFiles = fm.rolled.dataFiles ∧
      (rollOver opens fm.capture fm).2.metadata = fm.rolled.metadata ∧
      (rollOver opens fm.capture fm).2.activeDataFile = fm.rolled.activeDataFile ∧
      (rollOver opens fm.capture fm).2.activeFileId = fm.rolled.activeFileId ∨
    (rollOver opens fm.capture fm).1 ≠ .kOk ∧
      (rollOver opens fm.capture fm).2 = fm.scheduleSeal := by
  have hlinked : (fm.dataFiles (fm.activeFileId + 1)).linked = false :=
    (h.fresh (fm.activeFileId + 1) (Nat.lt_succ_self _)).1
  obtain ⟨hfiles, hmetadata, -, -⟩ := scheduleSeal_fields fm
  simp only [rollOver, capture, ne_eq, not_true_eq_false, if_false, u32_of_lt hwrap, createFile]
  cases hopen : opens (fm.activeFileId + 1) with
  | kOk =>
    left
    simp only [openActive, hfiles, hmetadata, hlinked, Bool.false_eq_true, if_false,
      unPackAll_absent, rebuildLog, rolled]
    exact ⟨trivial, rfl, trivial, trivial, trivial⟩
  | _ =>
    right
    simp

/-- `Append` returns the end of the log, or a status and changes no record. -/
theorem Stores.append_cases (h : fm.Stores L) (hs : e.Storable) (hwrap : ¬ fm.Wraps e)
    {status : Status} (happend : fm.append opens e = some (status, loc, fm')) :
    status = .kOk ∧ fm.Extends L e loc fm' ∨
      status ≠ .kOk ∧ fm'.Stores L ∧ fm'.metadata = fm.metadata ∧
        fm'.activeFileId = fm.activeFileId ∧ fm'.dataFiles = fm.dataFiles := by
  obtain ⟨n, hn⟩ : ∃ n, 2 ^ 32 + 1 = n + 1 + 1 := ⟨2 ^ 32 - 1, rfl⟩
  rw [append, hn, appendLoop] at happend
  rcases h.keeps.allocatePack_cases hs with ⟨hfits, logs, heq⟩ | ⟨hfull, heq⟩
  · simp only [heq, Option.some.injEq, Prod.mk.injEq] at happend
    obtain ⟨rfl, rfl, rfl⟩ := happend
    -- The active file takes the record.
    refine Or.inl ⟨rfl, congrArg (Location.mk fm.activeFileId) h.keeps.write, le_rfl, rfl,
      h.addRecord hs hfits logs, Finset.Subset.refl _, fun j hlt hle => ?_, addRecord_linked⟩
    exact absurd (hlt.trans_le hle) (lt_irrefl _)
  · -- The file is full, and a new one is opened.
    have hroll := h.rollOver_cases (not_wraps_of_not_fits hwrap hfull) opens
    rcases heq₁ : rollOver opens fm.capture fm with ⟨st, fm₁⟩
    rw [heq₁] at hroll
    simp only [heq, heq₁] at happend
    dsimp only at hroll
    rcases hroll with ⟨rfl, hfiles, hmetadata, hdata, hid⟩ | ⟨hne, rfl⟩
    · -- The new file is empty, so the second round allocates.
      have hstores : fm₁.Stores L :=
        (Holds.stores (Holds.rolled h)).congr hfiles hdata hid
      have hoffset : fm₁.activeOffset = 0 := by
        simp only [activeOffset, hfiles, hid, rolled, Function.update_self, DataFile.absent]
      have hfits : fm₁.Fits e := by
        rw [Fits, hoffset, Nat.zero_add]
        exact hs.size
      rcases hstores.keeps.allocatePack_cases hs with ⟨-, logs, heq₂⟩ | ⟨hfull₂, -⟩
      · simp only [appendLoop, heq₂, Option.some.injEq, Prod.mk.injEq] at happend
        obtain ⟨rfl, rfl, rfl⟩ := happend
        have hid' : fm₁.activeFileId = fm.activeFileId + 1 := hid
        have hregistered : fm₁.metadata.files = insert (fm.activeFileId + 1) fm.metadata.files := by
          rw [hmetadata, rolled, MetadataManager.createFile_files]
        refine Or.inl ⟨rfl, congrArg (Location.mk fm₁.activeFileId) hstores.keeps.write,
          hid' ▸ Nat.le_succ _, rfl, hstores.addRecord hs hfits logs, ?_, fun j hlt hle => ?_,
          fun j hj => addRecord_linked j (hfiles ▸ rolled_linked j hj)⟩
        · exact hregistered ▸ Finset.subset_insert _ _
        · obtain rfl : j = fm.activeFileId + 1 := le_antisymm (hid' ▸ hle) hlt
          exact hregistered ▸ Finset.mem_insert_self _ _
      · exact absurd hfits hfull₂
    · obtain ⟨hfiles, hmetadata, hdata, hid⟩ := scheduleSeal_fields fm
      have hfailed : st = status ∧ fm.scheduleSeal = fm' := by
        -- The status is that of the failed open.
        cases st with
        | kOk => exact absurd rfl hne
        | _ =>
          simp only [Option.some.injEq, Prod.mk.injEq] at happend
          exact ⟨happend.1, happend.2.2⟩
      obtain ⟨rfl, rfl⟩ := hfailed
      exact Or.inr ⟨hne, h.congr hfiles hdata hid, hmetadata, hid, hfiles⟩

theorem Stores.extends_of_append (h : fm.Stores L) (hs : e.Storable) (hwrap : ¬ fm.Wraps e)
    (happend : fm.append opens e = some (.kOk, loc, fm')) : fm.Extends L e loc fm' := by
  rcases h.append_cases hs hwrap happend with ⟨-, hextends⟩ | ⟨hne, -⟩
  · exact hextends
  · exact absurd rfl hne

theorem Stores.unchanged_of_append (h : fm.Stores L) (hs : e.Storable) (hwrap : ¬ fm.Wraps e)
    {status : Status} (hne : status ≠ .kOk) (happend : fm.append opens e = some (status, loc, fm')) :
    fm'.Stores L ∧ fm'.metadata = fm.metadata ∧
      fm'.activeFileId = fm.activeFileId ∧ fm'.dataFiles = fm.dataFiles := by
  rcases h.append_cases hs hwrap happend with ⟨hok, -⟩ | ⟨-, hunchanged⟩
  · exact absurd hok hne
  · exact hunchanged

/-- The records that were there stay there, in front of the new one. -/
theorem Extends.located (h : fm.Extends L e loc fm') :
    Located (L.add loc.id e) l x ↔ Located L l x ∨ l = loc ∧ x = e := by
  rw [located_add_iff, ← h.at_end]

theorem Extends.lt (h : fm.Extends L e loc fm') (hstores : fm.Stores L) (hloc : Located L l x) :
    l < loc := by
  rw [h.at_end]
  exact hloc.lt_endOf ((hstores.id_le_active hloc).trans h.le_id)

end FileManager

/-! ### What the threads are busy with -/

/-- A write that is not refused has a record within the limits. -/
theorem DBImpl.storable_of_prepare {w : Write} {db : DBImpl} (hw : w.Representable opt)
    (hprepare : DBImpl.prepare opt w db = .ok e) : (DBImpl.entryOf opt w).Storable := by
  have hsizeOf : (DBImpl.entryOf opt w).sizeOf = (DBImpl.entryOf opt w).size := u32_of_lt hw.size
  unfold DBImpl.prepare at hprepare
  split_ifs at hprepare with hro hbig
  exact DBImpl.entryOf_storable hw.key (hsizeOf ▸ not_lt.mp hbig)

/-- The iterator of a run of `Compact(id)` has just read `next` at this offset. -/
def Compaction.Reads (L : Log) (buffer : ReadBuffer) (id : ℕ) (it : RecordIterator) (next : Entry)
    (offset : ℕ) : Prop :=
  ∃ pre post, L id = pre ++ next :: post ∧ offset = totalSize pre ∧
    it.Ready buffer (totalSize (pre ++ [next])) ∧ next.type = .kSet

/-- Which records a run of `Compact(id)` has to do with. -/
def Compaction.Carries (L : Log) (buffer : ReadBuffer) : Compaction → Prop
  | .scan id it => ∃ pre post, L id = pre ++ post ∧ it.Ready buffer (totalSize pre)
  | .check id it offset next => Reads L buffer id it next offset
  | .append id it next => ∃ offset, Reads L buffer id it next offset
  | .install id it next loc => (∃ offset, Reads L buffer id it next offset) ∧ Located L loc next
  | _ => True

variable (opt) in
/-- Which records a thread has to do with. -/
def Thread.Carries (L : Log) (buffer : ReadBuffer) : Thread → Prop
  | .idle => True
  | .append w => (DBImpl.entryOf opt w).Storable
  | .index w loc => Located L loc (DBImpl.entryOf opt w)
  | .compact _ c => c.Carries L buffer

/-- A thread that has no record at a new location. A record that it is about to copy is the
one that the index leads to. -/
def Thread.Quiet (db : DBImpl) (L : Log) : Thread → Prop
  | .index _ _ | .compact _ (.install ..) => False
  | .compact _ (.append _ _ next) =>
    ∃ dir, db.find next.key = some dir ∧ Located L dir.loc next
  | _ => True

section Carries

variable {buffer : ReadBuffer} {id offset : ℕ} {it : RecordIterator} {next : Entry}

omit [Platform]

theorem Compaction.Reads.located (h : Compaction.Reads L buffer id it next offset) :
    Located L ⟨id, offset⟩ next := by
  obtain ⟨pre, post, hL, rfl, -⟩ := h
  rw [Located, hL]
  exact at_total pre next post

theorem Compaction.Reads.kSet (h : Compaction.Reads L buffer id it next offset) :
    next.type = .kSet := by
  obtain ⟨-, -, -, -, -, htype⟩ := h
  exact htype

/-- Behind a record that is passed. -/
theorem Compaction.Reads.scan (h : Compaction.Reads L buffer id it next offset) :
    Compaction.Carries L buffer (.scan id it) := by
  obtain ⟨pre, post, hL, -, hready, -⟩ := h
  exact ⟨pre ++ [next], post, by rw [hL, List.append_assoc]; rfl, hready⟩

theorem Compaction.Reads.grows {L' : Log} (h : Compaction.Reads L buffer id it next offset)
    (hgrows : ∃ xs, L' id = L id ++ xs) : Compaction.Reads L' buffer id it next offset := by
  obtain ⟨pre, post, hL, hoffset, hready⟩ := h
  obtain ⟨xs, hxs⟩ := hgrows
  exact ⟨pre, post ++ xs, by rw [hxs, hL]; simp, hoffset, hready⟩

theorem Compaction.Reads.add (h : Compaction.Reads L buffer id it next offset) (j : ℕ) (e : Entry) :
    Compaction.Reads (L.add j e) buffer id it next offset :=
  h.grows (Log.add_grows id)

theorem Compaction.Carries.grows {c : Compaction} {L' : Log} (h : c.Carries L buffer)
    (hgrows : ∀ j, ∃ xs, L' j = L j ++ xs) : c.Carries L' buffer := by
  cases c with
  | scan id it =>
    obtain ⟨pre, post, hL, hready⟩ := h
    obtain ⟨xs, hxs⟩ := hgrows id
    exact ⟨pre, post ++ xs, by rw [hxs, hL, List.append_assoc], hready⟩
  | check id it offset next => exact Compaction.Reads.grows h (hgrows id)
  | append id it next =>
    obtain ⟨offset, hreads⟩ := h
    exact ⟨offset, hreads.grows (hgrows id)⟩
  | install id it next loc =>
    obtain ⟨⟨offset, hreads⟩, hloc⟩ := h
    obtain ⟨xs, hxs⟩ := hgrows loc.id
    refine ⟨⟨offset, hreads.grows (hgrows id)⟩, ?_⟩
    rw [Located, hxs]
    exact At.append hloc xs
  | _ => trivial

theorem Compaction.Carries.add {c : Compaction} (h : c.Carries L buffer) (j : ℕ) (e : Entry) :
    c.Carries (L.add j e) buffer :=
  h.grows Log.add_grows

theorem Thread.Carries.add [Platform] {th : Thread} (h : th.Carries opt L buffer) (j : ℕ)
    (e : Entry) : th.Carries opt (L.add j e) buffer := by
  cases th with
  | idle => trivial
  | append w => exact h
  | index w loc => exact Located.add h j e
  | compact queue c => exact Compaction.Carries.add h j e

end Carries

/-- One round of the scan. -/
theorem DataFile.Holds.compactScan_carries {db : DBImpl} {id : ℕ} {it : RecordIterator}
    {buffer : ReadBuffer} (h : (db.fileManager.dataFiles id).Holds (L id))
    (hscan : Compaction.Carries L buffer (.scan id it)) :
    (db.compactScan id it buffer).1.Carries L (db.compactScan id it buffer).2 := by
  obtain ⟨pre, post, hL, hready⟩ := hscan
  cases post with
  | nil =>
    rw [h.compactScan_end (by rw [hL, List.append_nil]; exact hready)]
    trivial
  | cons e post =>
    have hat : RecordAt (L id) (totalSize pre) e := hL ▸ at_total pre e post
    rcases Nat.lt_or_ge (totalSize pre + e.size) kMaxFileBytes with hlt | hge
    · obtain ⟨it', rest, heq, hready'⟩ := h.compactScan_record hready hat hlt
      rw [← totalSize_concat] at hready'
      rw [heq]
      split_ifs with htype
      · exact ⟨pre ++ [e], post, by rw [hL]; simp, hready'⟩
      · exact ⟨pre, post, hL, rfl, hready', not_not.mp htype⟩
    · rw [h.compactScan_fills hready hat (le_antisymm (hat.end_le.trans h.fits) hge)]
      trivial

/-! ### States and steps -/

namespace Concurrent

variable {s s' : Concurrent} {a : Action}

variable (opt) in
/-- Keys and stored values fit their header, and a roll-over finds a file id that is left. -/
def Within (s : Concurrent) : Action → Prop
  | .write _ w => w.Representable opt
  | .append t _ =>
    match s.threads t with
    | .append w => ¬ s.db.fileManager.Wraps (DBImpl.entryOf opt w)
    | _ => True
  | .block t _ =>
    match s.threads t with
    | .compact _ (.append _ _ next) => ¬ s.db.fileManager.Wraps next
    | _ => True
  | _ => True

instance (s : Concurrent) (a : Action) : Decidable (s.Within opt a) := by
  unfold Within
  cases a with
  | append t opens =>
    dsimp only
    split <;> exact inferInstance
  | block t opens =>
    dsimp only
    split <;> exact inferInstance
  | _ => exact inferInstance

/-- The data files hold the records of the log, the index leads to set records, and every
thread knows where its record is. -/
structure Inv (opt : Options) (s : Concurrent) (L : Log) : Prop where
  stores : s.db.fileManager.Stores L
  written : L.Written opt
  pointed : ∀ key dir, s.db.find key = some dir →
    ∃ e, Located L dir.loc e ∧ e.key = key ∧ e.type = .kSet ∧ dir.entry_size = e.size
  threads : ∀ t, (s.threads t).Carries opt L (s.buffers t)

/-- What a thread carries, by what it is doing. -/
theorem Inv.carries {t : ℕ} {th : Thread} (h : Inv opt s L) (ht : s.threads t = th) :
    th.Carries opt L (s.buffers t) :=
  ht ▸ h.threads t

/-- What a step does to the records, the index, the registered files and the threads. -/
inductive Change (opt : Options) (s : Concurrent) (L : Log) : Action → Concurrent → Log → Prop
  | appended {t : ℕ} {opens : OpenData} {w : Write} {loc : Location} {fm : FileManager}
      (ht : s.threads t = .append w)
      (hextends : s.db.fileManager.Extends L (DBImpl.entryOf opt w) loc fm) :
      Change opt s L (.append t opens)
        ({ s with db := { s.db with fileManager := fm } }.setThread t (.index w loc))
        (L.add loc.id (DBImpl.entryOf opt w))
  | indexed {t : ℕ} {w : Write} {loc : Location} (ht : s.threads t = .index w loc) :
      Change opt s L (.index t)
        ({ s with db := (DBImpl.updateIndex opt w loc s.db).2 }.setThread t .idle) L
  | copied {t id : ℕ} {opens : OpenData} {queue : List ℕ} {it : RecordIterator} {next : Entry}
      {loc : Location} {fm : FileManager} (ht : s.threads t = .compact queue (.append id it next))
      (hextends : s.db.fileManager.Extends L next loc fm) :
      Change opt s L (.block t opens)
        ({ s with db := { s.db with fileManager := fm } }.setThread t
          (.compact queue (.install id it next loc))) (L.add loc.id next)
  | installed {t id : ℕ} {opens : OpenData} {queue : List ℕ} {it : RecordIterator} {next : Entry}
      {loc : Location} (ht : s.threads t = .compact queue (.install id it next loc)) :
      Change opt s L (.block t opens)
        ({ s with db := s.db.compactInstall next loc }.setThread t (.compact queue (.scan id it))) L
  | removed {t id : ℕ} {opens : OpenData} {queue : List ℕ}
      (ht : s.threads t = .compact queue (.finish id)) :
      Change opt s L (.block t opens)
        ({ s with db := s.db.compactFinish id }.setThread t (.compact queue .idle)) L
  | quiet {a : Action} {s' : Concurrent} (hfind : s'.db.find = s.db.find)
      (hstores : s'.db.fileManager.Stores L)
      (hfiles : s'.db.fileManager.metadata.files = s.db.fileManager.metadata.files)
      (hactive : s'.db.fileManager.activeFileId = s.db.fileManager.activeFileId)
      (hlinked : ∀ j, (s'.db.fileManager.dataFiles j).linked =
        (s.db.fileManager.dataFiles j).linked)
      (hthreads : ∀ u, s'.threads u = s.threads u ∧ s'.buffers u = s.buffers u ∨
        (s'.threads u).Quiet s.db L ∧ (s'.threads u).Carries opt L (s'.buffers u)) :
      Change opt s L a s' L

section

omit [Platform]

@[simp] theorem setThread_db (s : Concurrent) (t : ℕ) (th : Thread) : (s.setThread t th).db = s.db :=
  rfl

@[simp] theorem setThread_self (s : Concurrent) (t : ℕ) (th : Thread) :
    (s.setThread t th).threads t = th :=
  Function.update_self ..

theorem setThread_of_ne {t u : ℕ} (th : Thread) (h : u ≠ t) :
    (s.setThread t th).threads u = s.threads u :=
  Function.update_of_ne h ..

/-- The writes that wait for their index update when a thread has gone on to something else. -/
theorem index_of_setThread {t u : ℕ} {th : Thread} {db : DBImpl} {w : Write} {loc : Location}
    (hth : ∀ w loc, th ≠ .index w loc)
    (hu : (({ s with db } : Concurrent).setThread t th).threads u = .index w loc) :
    s.threads u = .index w loc := by
  by_cases hut : u = t
  · subst hut
    rw [setThread_self] at hu
    exact absurd hu (hth w loc)
  · rwa [setThread_of_ne th hut] at hu

end

/-- A step that moves one thread, which has no record at a new location, and changes neither
index nor files. -/
theorem Change.ofThread {db : DBImpl} {t : ℕ} {th : Thread} {buffer : ReadBuffer}
    {scheduled : List ℕ} (hfind : db.find = s.db.find) (hstores : db.fileManager.Stores L)
    (hfiles : db.fileManager.metadata.files = s.db.fileManager.metadata.files)
    (hactive : db.fileManager.activeFileId = s.db.fileManager.activeFileId)
    (hdata : db.fileManager.dataFiles = s.db.fileManager.dataFiles)
    (hquiet : th.Quiet s.db L) (hcarries : th.Carries opt L buffer) :
    Change opt s L a
      { db
        threads := Function.update s.threads t th
        buffers := Function.update s.buffers t buffer
        scheduled } L := by
  refine .quiet hfind hstores hfiles hactive (fun j => congrArg (fun f => (f j).linked) hdata)
    fun u => ?_
  by_cases hu : u = t
  · subst hu
    simp only [Function.update_self]
    exact Or.inr ⟨hquiet, hcarries⟩
  · exact Or.inl ⟨Function.update_of_ne hu .., Function.update_of_ne hu ..⟩

/-- The same, when the thread does not read. -/
theorem Change.ofSetThread {db : DBImpl} {t : ℕ} {th : Thread} {scheduled : List ℕ}
    (hfind : db.find = s.db.find) (hstores : db.fileManager.Stores L)
    (hfiles : db.fileManager.metadata.files = s.db.fileManager.metadata.files)
    (hactive : db.fileManager.activeFileId = s.db.fileManager.activeFileId)
    (hdata : db.fileManager.dataFiles = s.db.fileManager.dataFiles)
    (hquiet : th.Quiet s.db L) (hcarries : th.Carries opt L (s.buffers t)) :
    Change opt s L a
      { db, threads := Function.update s.threads t th, buffers := s.buffers, scheduled } L := by
  have hchange : Change opt s L a
      { db
        threads := Function.update s.threads t th
        buffers := Function.update s.buffers t (s.buffers t)
        scheduled } L :=
    .ofThread hfind hstores hfiles hactive hdata hquiet hcarries
  rwa [Function.update_eq_self] at hchange

/-- The same, when only the database changes, or the tasks that are scheduled. -/
theorem Change.ofDb {db : DBImpl} {scheduled : List ℕ} (hfind : db.find = s.db.find)
    (hstores : db.fileManager.Stores L)
    (hfiles : db.fileManager.metadata.files = s.db.fileManager.metadata.files)
    (hactive : db.fileManager.activeFileId = s.db.fileManager.activeFileId)
    (hdata : db.fileManager.dataFiles = s.db.fileManager.dataFiles) :
    Change opt s L a { s with db, scheduled } L :=
  .quiet hfind hstores hfiles hactive (fun j => congrArg (fun f => (f j).linked) hdata)
    fun _ => Or.inl ⟨rfl, rfl⟩

namespace Inv

theorem change (h : Inv opt s L) (hw : s.Within opt a) (hstep : step opt s a = some s') :
    ∃ L', Change opt s L a s' L' := by
  have hstores := h.stores
  cases step_effect hstep with
  | refused => exact ⟨L, .ofDb rfl hstores rfl rfl rfl⟩
  | write hidle hprepare =>
    exact ⟨L, .ofSetThread rfl hstores rfl rfl rfl trivial (DBImpl.storable_of_prepare hw hprepare)⟩
  | @append t opens w loc fm ht happend =>
    have hs : (DBImpl.entryOf opt w).Storable := h.carries ht
    simp only [Within, ht] at hw
    exact ⟨_, .appended ht (hstores.extends_of_append hs hw happend)⟩
  | @appendFail t opens w status loc fm ht hne happend =>
    have hs : (DBImpl.entryOf opt w).Storable := h.carries ht
    simp only [Within, ht] at hw
    obtain ⟨hstores', hmetadata, hactive, hdata⟩ := hstores.unchanged_of_append hs hw hne happend
    exact ⟨L, .ofSetThread rfl hstores' (congrArg _ hmetadata) hactive hdata trivial trivial⟩
  | index ht => exact ⟨L, .indexed ht⟩
  | poll => exact ⟨L, .ofDb rfl hstores rfl rfl rfl⟩
  | start ht hi => exact ⟨L, .ofSetThread rfl hstores rfl rfl rfl trivial trivial⟩
  | compact ht => exact ⟨L, .ofSetThread rfl hstores rfl rfl rfl trivial trivial⟩
  | done ht => exact ⟨L, .ofSetThread rfl hstores rfl rfl rfl trivial trivial⟩
  | next ht => exact ⟨L, .ofSetThread rfl hstores rfl rfl rfl trivial trivial⟩
  | @opened t id opens queue fm ht hwritable hopen =>
    obtain ⟨o, ho⟩ := FileManager.acquireDataFile_openFiles s.db.fileManager id
    rw [hopen] at ho
    subst ho
    exact ⟨L, .ofSetThread rfl (hstores.congr rfl rfl rfl) rfl rfl rfl trivial trivial⟩
  | refusedRun ht hreadonly => exact ⟨L, .ofSetThread rfl hstores rfl rfl rfl trivial trivial⟩
  | @openFail t id opens queue status fm ht hne hopen =>
    obtain ⟨o, ho⟩ := FileManager.acquireDataFile_openFiles s.db.fileManager id
    rw [hopen] at ho
    subst ho
    exact ⟨L, .ofSetThread rfl (hstores.congr rfl rfl rfl) rfl rfl rfl trivial trivial⟩
  | @mark t id opens queue ht =>
    exact ⟨L, .ofSetThread rfl hstores rfl rfl rfl trivial
      ⟨[], L id, rfl, RecordIterator.ready_create (s.buffers t)⟩⟩
  | @scan t id opens queue it ht =>
    have hnext := (hstores.files id).compactScan_carries (h.carries ht)
    refine ⟨L, .ofThread rfl hstores rfl rfl rfl ?_ hnext⟩
    rcases DBImpl.compactScan_cases id it (s.buffers t) s.db with hc | ⟨e, it', -, hc | ⟨o, hc⟩⟩
    · rw [hc]
      trivial
    · rw [hc]
      trivial
    · rw [hc]
      trivial
  | @check t id offset opens queue it next ht =>
    have hreads : Compaction.Reads L (s.buffers t) id it next offset := h.carries ht
    rcases DBImpl.compactCheck_cases id it offset next s.db with hc | ⟨dir, hdir, hloc, hc⟩
    · rw [hc]
      exact ⟨L, .ofSetThread rfl hstores rfl rfl rfl trivial hreads.scan⟩
    · -- The index still leads to the record that was read.
      rw [hc]
      exact ⟨L, .ofSetThread rfl hstores rfl rfl rfl ⟨dir, hdir, hloc ▸ hreads.located⟩
        ⟨offset, hreads⟩⟩
  | @copy t id opens queue it next loc fm ht happend =>
    obtain ⟨offset, hreads⟩ := h.carries ht
    have hs := hstores.storable hreads.located
    simp only [Within, ht] at hw
    exact ⟨_, .copied ht (hstores.extends_of_append hs hw happend)⟩
  | @copyFail t id opens queue it next status loc fm ht hne happend =>
    obtain ⟨offset, hreads⟩ := h.carries ht
    have hs := hstores.storable hreads.located
    simp only [Within, ht] at hw
    obtain ⟨hstores', hmetadata, hactive, hdata⟩ := hstores.unchanged_of_append hs hw hne happend
    exact ⟨L, .ofSetThread rfl hstores' (congrArg _ hmetadata) hactive hdata trivial trivial⟩
  | install ht => exact ⟨L, .installed ht⟩
  | finish ht => exact ⟨L, .removed ht⟩
  | fail ht => exact ⟨L, .ofSetThread rfl hstores rfl rfl rfl trivial trivial⟩
  | readonly => exact ⟨L, .ofDb rfl hstores rfl rfl rfl⟩
  | @task i fm hrun =>
    have hstores' := hstores.runTask hrun
    obtain ⟨tasks, indexFiles, rfl⟩ := FileManager.runTask_eq hrun
    exact ⟨L, .ofDb rfl hstores' rfl rfl rfl⟩

/-- One thread goes on with a record, and the other ones keep theirs. -/
theorem threads_setThread {t : ℕ} {th : Thread} {db : DBImpl}
    (hgrows : ∀ u, (s.threads u).Carries opt L' (s.buffers u))
    (hth : th.Carries opt L' (s.buffers t)) (u : ℕ) :
    (({ s with db } : Concurrent).setThread t th |>.threads u).Carries opt L' (s.buffers u) := by
  by_cases hu : u = t
  · subst hu
    rw [setThread_self]
    exact hth
  · rw [setThread_of_ne th hu]
    exact hgrows u

/-- A record is added to the log. -/
theorem extend {db : DBImpl} {t : ℕ} {th : Thread} (h : Inv opt s L)
    (hextends : s.db.fileManager.Extends L e loc db.fileManager) (hfind : db.find = s.db.find)
    (he : ∃ w, e = DBImpl.entryOf opt w)
    (hth : th.Carries opt (L.add loc.id e) (s.buffers t)) :
    Inv opt ({ s with db }.setThread t th) (L.add loc.id e) where
  stores := hextends.stores
  written := h.written.add he
  pointed := by
    intro key dir hdir
    rw [setThread_db] at hdir
    obtain ⟨x, hx, hkey⟩ := h.pointed key dir (hfind ▸ hdir)
    exact ⟨x, hx.add _ _, hkey⟩
  threads := threads_setThread (fun u => (h.threads u).add _ _) hth

theorem step (h : Inv opt s L) (hchange : Change opt s L a s' L') : Inv opt s' L' := by
  cases hchange with
  | @appended t opens w loc fm ht hextends =>
    exact h.extend hextends rfl ⟨w, rfl⟩ (hextends.located.mpr (Or.inr ⟨rfl, rfl⟩))
  | @indexed t w loc ht =>
    have hloc : Located L loc (DBImpl.entryOf opt w) := h.carries ht
    refine ⟨?_, h.written, fun key dir hdir => ?_, threads_setThread h.threads trivial⟩
    · rw [setThread_db, DBImpl.updateIndex_fileManager]
      exact h.stores
    · rw [setThread_db, DBImpl.find_updateIndex] at hdir
      split_ifs at hdir with hkey hvalue
      · obtain rfl := Option.some_inj.mp hdir
        exact ⟨_, hloc, hkey.symm, DBImpl.entryOf_kSet.mpr hvalue,
          (h.stores.storable hloc).sizeOf_eq⟩
      · exact h.pointed key dir hdir
  | @copied t id opens queue it next loc fm ht hextends =>
    obtain ⟨offset, hreads⟩ := h.carries ht
    refine h.extend hextends rfl (h.written id next hreads.located.mem) ⟨⟨offset, ?_⟩, ?_⟩
    · exact hreads.add loc.id next
    · exact hextends.located.mpr (Or.inr ⟨rfl, rfl⟩)
  | @installed t id opens queue it next loc ht =>
    obtain ⟨⟨offset, hreads⟩, hloc⟩ := h.carries ht
    refine ⟨?_, h.written, fun key dir hdir => ?_, threads_setThread h.threads hreads.scan⟩
    · rw [setThread_db, DBImpl.compactInstall_fileManager]
      exact h.stores
    · rw [setThread_db, DBImpl.find_compactInstall] at hdir
      split_ifs at hdir with hcond
      · obtain rfl := Option.some_inj.mp hdir
        exact ⟨next, hloc, hcond.1.symm, hreads.kSet, (h.stores.storable hloc).sizeOf_eq⟩
      · exact h.pointed key dir hdir
  | @removed t id opens queue ht =>
    exact ⟨h.stores.removeFile id, h.written, h.pointed, threads_setThread h.threads trivial⟩
  | quiet hfind hstores hfiles hactive hlinked hthreads =>
    refine ⟨hstores, h.written, fun key dir hdir => h.pointed key dir (hfind ▸ hdir), fun u => ?_⟩
    rcases hthreads u with ⟨hsame, hbuffer⟩ | ⟨-, hcarries⟩
    · rw [hsame, hbuffer]
      exact h.threads u
    · exact hcarries

/-- A database that is not in use. -/
theorem start {db : DBImpl} (h : db.Sound L) (hwritten : L.Written opt) :
    Inv opt (Concurrent.start db) L where
  stores := h.holds.stores
  written := hwritten
  pointed := h.pointed
  threads := fun _ => trivial

/-- A run within the limits. -/
theorem run {as : List Action} (h : Inv opt s L) (hrun : Run (Concurrent.step opt) s as s')
    (hwithin : Meets (Concurrent.step opt) (Within opt) s as) : ∃ L', Inv opt s' L' := by
  refine hrun.invariant (P := fun s => ∃ L, Inv opt s L) hwithin ⟨L, h⟩ ?_
  rintro t a u ⟨L, h⟩ hw hstep
  obtain ⟨L', hchange⟩ := h.change hw hstep
  exact ⟨L', h.step hchange⟩

end Inv

end Concurrent

end

end PedroDB
