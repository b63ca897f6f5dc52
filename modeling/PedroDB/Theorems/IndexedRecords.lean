import PedroDB.Reference
import PedroDB.Session

/-!
# The index points at the right bytes

As long as no file is removed, a key that was put is found at a location where its record
is decoded, and no other key is found. File ids have 32 bits; when they wrap around,
`CreateFile` reopens a file that is there and goes on behind its last record, so that the
result needs no bound on the number of files.

## Main definitions

* `FileManager.Unremoved` — the data files hold the records of a log, none is removed
* `Session.Writes` — the calls of the result
* `Session.Indices` — the index after these calls

## Main results

* `FileManager.Unremoved.appendLoop` — what a returning `Append` does
* `FileManager.Unremoved.exists_append` — it returns while a file id is unused
* `Session.find_written` — the index points at the right bytes
-/

namespace PedroDB

namespace FileManager

variable [Platform] {fm fm' : FileManager} {L : Log} {e : Entry} {id fuel k : ℕ}
  {status : Status} {loc : Location}

/-- The data files hold the records of the log, and a file that does not exist has none. -/
structure Unremoved (fm : FileManager) (L : Log) : Prop extends fm.Laid L where
  bound : fm.activeFileId < 2 ^ 32
  active : (fm.dataFiles fm.activeFileId).linked = true
  absent : ∀ id, (fm.dataFiles id).linked = false → L id = []

omit [Platform] in
theorem scheduleSeal_eq (fm : FileManager) :
    ∃ log tasks, fm.scheduleSeal = { fm with activeIndexLog := log, tasks } := by
  unfold scheduleSeal
  split
  · exact ⟨_, _, rfl⟩
  · exact ⟨_, _, rfl⟩

namespace Unremoved

/-- A roll-over opens the next file, also one that has records. -/
theorem rollOver_capture (h : fm.Unremoved L) :
    ∃ fm', rollOver .sound fm.capture fm = (.kOk, fm') ∧
      fm'.activeFileId = u32 (fm.activeFileId + 1) ∧ fm'.Unremoved L := by
  obtain ⟨log, tasks, hseal⟩ := scheduleSeal_eq fm
  rw [h.capture_eq, rollOver, if_neg (by simp), createFile, OpenData.sound, hseal]
  have hbound : u32 (fm.activeFileId + 1) < 2 ^ 32 := Nat.mod_lt _ (by decide)
  generalize u32 (fm.activeFileId + 1) = id at hbound
  have hopened : (({ fm with activeIndexLog := log, tasks } : FileManager).opened id).Holds
      (L id) := by
    unfold opened
    split_ifs with hlinked
    · exact h.files id
    · rw [h.absent id (Bool.eq_false_iff.mpr hlinked)]
      exact absent_holds
  have hlaid : (openActive id { fm with activeIndexLog := log, tasks }).Laid L :=
    openActive_laid (fun j _ => h.files j) hopened
  refine ⟨_, rfl, rfl, hlaid, hbound, ?_, fun j hj => ?_⟩
  · rw [openActive_eq hopened]
    simp only [Function.update_self]
  · rw [openActive_eq hopened] at hj
    by_cases hid : j = id
    · subst hid
      simp at hj
    · simp only [Function.update_of_ne hid] at hj
      exact h.absent j hj

theorem addRecord (h : fm.Unremoved L) (hs : e.Storable) (hfits : fm.Fits e) :
    (addRecord fm.activeFileId e fm).Unremoved (L.add fm.activeFileId e) where
  toLaid := h.toLaid.addRecord hs hfits
  bound := h.bound
  active := by simpa [FileManager.addRecord] using h.active
  absent := by
    intro id hid
    by_cases hactive : id = fm.activeFileId
    · subst hactive
      simp [FileManager.addRecord, h.active] at hid
    · simp only [FileManager.addRecord, Function.update_of_ne hactive] at hid
      rw [Log.add, Function.update_of_ne hactive]
      exact h.absent id hid

/-- What a returning `Append` does: the record is the last one of some file. -/
theorem appendLoop (h : fm.Unremoved L) (hs : e.Storable)
    (hrun : FileManager.appendLoop .sound e fuel fm = some (status, loc, fm')) :
    status = .kOk ∧ loc = L.endOf loc.id ∧ fm'.Unremoved (L.add loc.id e) := by
  induction fuel generalizing fm with
  | zero => simp [FileManager.appendLoop] at hrun
  | succ fuel ih =>
    obtain ⟨fm₁, hroll, -, h₁⟩ := h.rollOver_capture
    rw [FileManager.appendLoop, h.allocatePack_capture hs] at hrun
    by_cases hfits : fm.Fits e
    · simp only [hfits, if_true, Option.some.injEq, Prod.mk.injEq] at hrun
      obtain ⟨rfl, rfl, rfl⟩ := hrun
      exact ⟨rfl, by rw [h.write]; rfl, h.addRecord hs hfits⟩
    · simp only [hfits, if_false, hroll] at hrun
      exact ih h₁ hrun

/-- `Append` returns once it comes to a file without records. -/
theorem exists_appendLoop (h : fm.Unremoved L) (hs : e.Storable) (hfuel : k < fuel)
    (hempty : L (u32 (fm.activeFileId + k)) = []) : (FileManager.appendLoop .sound e fuel fm).isSome := by
  induction k generalizing fm fuel with
  | zero =>
    obtain ⟨fuel, rfl⟩ : ∃ n, fuel = n + 1 := ⟨fuel - 1, by omega⟩
    have hfits : fm.Fits e := by
      rw [Nat.add_zero, u32_of_lt h.bound] at hempty
      rw [Fits, h.write, hempty]
      exact (Nat.zero_add _).trans_le hs.size
    simp [FileManager.appendLoop, h.allocatePack_capture hs, hfits]
  | succ k ih =>
    obtain ⟨fuel, rfl⟩ : ∃ n, fuel = n + 1 := ⟨fuel - 1, by omega⟩
    obtain ⟨fm₁, hroll, hactive, h₁⟩ := h.rollOver_capture
    rw [FileManager.appendLoop, h.allocatePack_capture hs]
    by_cases hfits : fm.Fits e
    · simp [hfits]
    · simp only [hfits, if_false, hroll]
      have hnext : u32 (fm₁.activeFileId + k) = u32 (fm.activeFileId + (k + 1)) := by
        rw [hactive]
        simp only [u32]
        omega
      exact ih h₁ (by omega) (hnext ▸ hempty)

/-- As long as a file id is unused, `Append` returns. -/
theorem exists_append {id : ℕ} (h : fm.Unremoved L) (hs : e.Storable)
    (hlt : id < 2 ^ 32) (hunused : (fm.dataFiles id).linked = false) : (fm.append .sound e).isSome := by
  have hbound := h.bound
  have hk : u32 (fm.activeFileId + u32 (id + (2 ^ 32 - fm.activeFileId))) = id := by
    simp only [u32]
    omega
  have hlt' : u32 (id + (2 ^ 32 - fm.activeFileId)) < 2 ^ 32 := Nat.mod_lt _ (by decide)
  exact h.exists_appendLoop hs (by omega) (hk.symm ▸ h.absent id hunused)

end Unremoved
end FileManager

namespace Session

open Transition

section

variable [Platform] {opt : Options} {name : Bytes} {as : List Action} {s s' : Session}
  {a : Action} {L : Log} {w : Write} {db : DBImpl} {status : Status}

/-- The key has at most 255 bytes, the record fits a data file. -/
def Fitting (opt : Options) (w : Write) : Prop :=
  w.key.length ≤ 255 ∧ (DBImpl.entryOf opt w).size ≤ kMaxFileBytes

instance (opt : Options) (w : Write) : Decidable (Fitting opt w) :=
  inferInstanceAs (Decidable (_ ∧ _))

/-- A `Put` or a `Delete` within the limits, or a task of the executor. -/
def IsWrite (opt : Options) : Action → Prop
  | .write w => Fitting opt w
  | .task _ => True
  | _ => False

instance (opt : Options) : (a : Action) → Decidable (IsWrite opt a)
  | .write w => inferInstanceAs (Decidable (Fitting opt w))
  | .task _ => .isTrue trivial
  | .get _ _ | .compact | .block => .isFalse id

/-- The index after a run of writes. -/
structure Indices (opt : Options) (s : Session) (L : Log) (as : List Action) : Prop where
  files : s.db.fileManager.Unremoved L
  idle : s.Quiescent
  writable : s.db.readonly = false
  absent : ∀ key, written as key = none → s.db.find key = none
  live : ∀ key v, written as key = some v → ∃ w dir, w.key = key ∧ w.value = v ∧ v ≠ [] ∧
    s.db.find key = some dir ∧ Located L dir.loc (DBImpl.entryOf opt w) ∧
      dir.entry_size = (DBImpl.entryOf opt w).size

namespace Indices

theorem fresh (h : Session.fresh opt name = some s) : Indices opt s (fun _ => []) [] := by
  obtain ⟨hdb, hidle⟩ := fresh_db h
  have hholds : (newFiles opt name).Holds fun _ => [] := newFiles_holds
  have hfind : ∀ key, s.db.find key = none := by
    intro key
    rw [hdb]
    simp [DBImpl.find, newDb, DBImpl.create]
  refine ⟨hdb ▸ ⟨hholds.toLaid, show 1 < 2 ^ 32 by decide, ?_, fun _ _ => rfl⟩, hidle, hdb ▸ rfl,
    fun key _ => hfind key, by simp [written]⟩
  simp [newDb, DBImpl.create, newFiles]

/-- `HandlePut` is an `Append` and an index update. -/
theorem handlePut_eq (h : Indices opt s L as) (hw : Fitting opt w)
    (hput : s.db.handlePut opt .sound w = some (status, db)) :
    ∃ loc fm, s.db.fileManager.append .sound (DBImpl.entryOf opt w) = some (.kOk, loc, fm) ∧
      (status, db) = DBImpl.updateIndex opt w loc { s.db with fileManager := fm } := by
  have hs := DBImpl.entryOf_storable hw.1 hw.2
  simp only [DBImpl.handlePut, DBImpl.prepare_eq h.writable hs] at hput
  rcases happ : s.db.fileManager.append .sound (DBImpl.entryOf opt w) with _ | ⟨st, loc, fm⟩
  · simp [happ] at hput
  · obtain ⟨rfl, -⟩ := h.files.appendLoop hs happ
    simp only [happ, Option.some.injEq] at hput
    exact ⟨loc, fm, rfl, hput.symm⟩

theorem write (h : Indices opt s L as) (hw : Fitting opt w)
    (hput : s.db.handlePut opt .sound w = some (status, db)) :
    ∃ L', Indices opt { s with db } L' (as ++ [.write w]) := by
  have hs := DBImpl.entryOf_storable hw.1 hw.2
  obtain ⟨loc, fm, happ, hupd⟩ := h.handlePut_eq hw hput
  obtain ⟨-, hloc, hfiles⟩ := h.files.appendLoop hs happ
  have hdb : db = (DBImpl.updateIndex opt w loc { s.db with fileManager := fm }).2 :=
    congrArg Prod.snd hupd
  -- What the index maps each key to, by the kind of the write.
  have hfind : ∀ key, db.find key = if key = w.key then
      if w.value = [] then none else
        some { entry_size := (DBImpl.entryOf opt w).sizeOf, loc }
      else s.db.find key := fun key => by
    rw [hdb, DBImpl.find_updateIndex]
    rfl
  refine ⟨L.add loc.id (DBImpl.entryOf opt w), ?_, h.idle, ?_, fun key => ?_, fun key v => ?_⟩
  · rw [hdb, DBImpl.updateIndex_fileManager]
    exact hfiles
  · rw [hdb, DBImpl.updateIndex_readonly]
    exact h.writable
  · rw [hfind, written_write]
    split_ifs with hkey hv
    · -- Deleted now.
      exact fun _ => rfl
    · simp
    · exact h.absent key
  · rw [hfind, written_write]
    split_ifs with hkey hv
    · simp
    · -- The key itself, and its record is the one appended.
      rintro ⟨⟩
      refine ⟨w, _, hkey.symm, rfl, hv, rfl, ?_, hs.sizeOf_eq⟩
      exact hloc ▸ located_endOf L loc.id _
    · intro hold
      -- Any other key keeps its record.
      obtain ⟨w', dir, hk, hval, hne, hdir, hlocated, hsize⟩ := h.live key v hold
      exact ⟨w', dir, hk, hval, hne, hdir, hlocated.add _ _, hsize⟩

theorem step (h : Indices opt s L as) (ha : IsWrite opt a) (hstep : Session.step opt s a = some s') :
    ∃ L', Indices opt s' L' (as ++ [a]) := by
  cases a with
  | write w =>
    rw [Session.step, if_pos h.idle] at hstep
    obtain ⟨⟨status, db⟩, hput, rfl⟩ := Option.map_eq_some_iff.mp hstep
    exact h.write ha hput
  | task i =>
    obtain ⟨fm, hrun, rfl⟩ := Option.map_eq_some_iff.mp hstep
    obtain ⟨tasks, indexFiles, rfl⟩ := FileManager.runTask_eq hrun
    have hwritten : written (as ++ [.task i]) = written as := by simp [written]
    have hlaid := h.files.toLaid
    refine ⟨L, ⟨⟨hlaid.files, hlaid.data, hlaid.log, hlaid.write⟩, h.files.bound, h.files.active,
      h.files.absent⟩, h.idle, h.writable, ?_, ?_⟩
    · rw [hwritten]
      exact h.absent
    · rw [hwritten]
      exact h.live
  | get => exact ha.elim
  | compact => exact ha.elim
  | block => exact ha.elim

end Indices

/-- After any run of writes the index points at the right bytes: a key is found exactly if
it was put last, and decoding its file at its location consumes the entry's size and gives
the record. A call reports `kNotFound` exactly if it deletes an absent key, and returns
unless all data files are there. -/
theorem find_written (hwrites : ∀ a ∈ as, IsWrite opt a) (hreach : Reaches opt name as s) :
    (∀ key, written as key = none → s.db.find key = none) ∧
    (∀ key v, written as key = some v → ∃ dir e, s.db.find key = some dir ∧
      let buffer := FileManager.readableBuffer (s.db.fileManager.dataFiles dir.loc.id)
      Entry.unPack (buffer.retrieve dir.loc.offset) =
          (some e, buffer.retrieve (dir.loc.offset + dir.entry_size)) ∧
        e.type = .kSet ∧ e.key = key ∧ e.value = DBImpl.stored opt v ∧ e.validate = true) ∧
    ∀ w, Fitting opt w →
      (∀ status db, s.db.handlePut opt .sound w = some (status, db) →
        status = if w.value = [] ∧ written as w.key = none then .kNotFound else .kOk) ∧
      ((∃ id < 2 ^ 32, (s.db.fileManager.dataFiles id).linked = false) →
        (s.db.handlePut opt .sound w).isSome) := by
  obtain ⟨s₀, hs₀, hrun⟩ := hreach
  have hmeets : Meets (step opt) (fun _ a => IsWrite opt a) s₀ as := by
    rintro pre a post t rfl -
    exact hwrites a (by simp)
  -- The invariant, over the whole history.
  obtain ⟨L, h⟩ : ∃ L, Indices opt s L as := by
    refine hrun.history (P := fun as s => ∃ L, Indices opt s L as) hmeets
      ⟨_, Indices.fresh hs₀⟩ ?_
    rintro as t a u ⟨L, h⟩ ha hstep
    exact h.step ha hstep
  refine ⟨h.absent, fun key v hwritten => ?_, fun w hw => ⟨fun status db hput => ?_, ?_⟩⟩
  · obtain ⟨w, dir, rfl, rfl, hne, hfind, hloc, hsize⟩ := h.live key v hwritten
    refine ⟨dir, DBImpl.entryOf opt w, hfind, ?_, DBImpl.entryOf_kSet.mpr hne, rfl, rfl,
      DBImpl.entryOf_validate⟩
    rw [hsize]
    exact (h.files.files dir.loc.id).unPack_eq hloc
  · obtain ⟨loc, fm, -, hupd⟩ := h.handlePut_eq hw hput
    -- The status tells whether the key was there.
    rw [show status = _ from congrArg Prod.fst hupd, DBImpl.updateIndex_status]
    have hiff : s.db.find w.key = none ↔ written as w.key = none := by
      refine ⟨fun hfind => ?_, h.absent w.key⟩
      by_contra hsome
      obtain ⟨v, hv⟩ := Option.ne_none_iff_exists'.mp hsome
      obtain ⟨_, dir, -, -, -, hdir, -⟩ := h.live w.key v hv
      rw [hfind] at hdir
      cases hdir
    exact if_congr (and_congr_right' hiff) rfl rfl
  · rintro ⟨id, hlt, hunused⟩
    -- A file id is left, so the append ends.
    have hs := DBImpl.entryOf_storable hw.1 hw.2
    obtain ⟨⟨st, loc, fm⟩, happ⟩ :=
      Option.isSome_iff_exists.mp (h.files.exists_append hs hlt hunused)
    obtain ⟨rfl, -⟩ := h.files.appendLoop hs happ
    simp [DBImpl.handlePut, DBImpl.prepare_eq h.writable hs, happ]

end

open scoped Reference

/-- A key is put twice, another one is put and deleted. -/
def putTwiceDelete : List Action :=
  [.write (.put [107] [118]), .write (.put [108] [119]), .write (.put [107] [120, 121]),
    .write (.delete [108])]

theorem find_written_putTwiceDelete : ∃ s, Reaches Reference.options [] putTwiceDelete s ∧
    ∃ dir e, s.db.find [107] = some dir ∧
      Entry.unPack ((FileManager.readableBuffer
        (s.db.fileManager.dataFiles dir.loc.id)).retrieve dir.loc.offset) =
          (some e, (FileManager.readableBuffer (s.db.fileManager.dataFiles dir.loc.id)).retrieve
            (dir.loc.offset + dir.entry_size)) ∧
        e.type = .kSet ∧ e.key = [107] ∧ e.value = [120, 121] ∧ e.validate = true := by
  obtain ⟨s₀, hs₀, -⟩ := exists_fresh Reference.options []
  have hsome : ((Session.fresh Reference.options []).bind fun s =>
      putTwiceDelete.foldlM (step Reference.options) s).isSome := by decide +kernel
  rw [hs₀] at hsome
  obtain ⟨s, hs⟩ := Option.isSome_iff_exists.mp hsome
  exact ⟨s, ⟨s₀, hs₀, hs⟩,
    (find_written (by decide) ⟨s₀, hs₀, hs⟩).2.1 [107] [120, 121] (by decide)⟩

end Session
end PedroDB
