import PedroDB.Theorems.ConcurrentAppends

/-!
# Index files under concurrent appenders

The executor writes the index file of a sealed file once. An appender that captured the
file before it was sealed may still append to it, and what it appends then is in no index
file.

## Main definitions

* `FileManager.Listed` — index logs and index files list the records of their files
* `Appenders.Unlisted` — a record goes only into a file that has no index file yet

## Main results

* `Appenders.decode_of_run` — under this condition every index file lists all records
* `Appenders.exists_unlisted` — three calls that leave a record out of the index file
-/

namespace PedroDB

open Framing Transition

section

variable [Platform]

namespace FileManager

variable {fm fm' : FileManager} {L : Log} {e : Entry} {id : ℕ}

/-- The index logs that are still to be used list the records of their files, and so do
all index files. -/
structure Listed (fm : FileManager) (L : Log) : Prop where
  active : fm.indexLogs fm.activeFileId = packLog (L fm.activeFileId)
  tasks : ∀ id, Task.createIndexFile id ∈ fm.tasks →
    id < fm.activeFileId ∧ fm.indexLogs id = packLog (L id)
  files : ∀ id bytes, fm.indexFiles id = some bytes → bytes = packLog (L id)

/-- What an appender logs, on any file it writes behind the last record of. -/
theorem indexLogs_addRecord (hid : fm.Writable L id) {j : ℕ}
    (hj : fm.indexLogs j = packLog (L j)) :
    (fm.addRecord id e).indexLogs j = packLog (L.add id e j) := by
  by_cases heq : j = id
  · subst heq
    simp only [addRecord, Log.add, Function.update_self, packLog_concat, hj, hid.write]
  · simp only [addRecord, Log.add, Function.update_of_ne heq, hj]

theorem Listed.addRecord (h : fm.Listed L) (hid : fm.Writable L id)
    (hnone : fm.indexFiles id = none) : (fm.addRecord id e).Listed (L.add id e) where
  active := indexLogs_addRecord hid h.active
  tasks := fun j hj => ⟨(h.tasks j hj).1, indexLogs_addRecord hid (h.tasks j hj).2⟩
  files := by
    intro j bytes hj
    have hne : j ≠ id := by
      rintro rfl
      exact absurd (hnone.symm.trans hj) (by simp)
    rw [Log.add, Function.update_of_ne hne]
    exact h.files j bytes hj

theorem Listed.rolled (h : fm.Listed L) (hfresh : L (fm.activeFileId + 1) = []) :
    fm.rolled.Listed L where
  active := by
    simp only [FileManager.rolled, Function.update_self, hfresh]
    rfl
  tasks := by
    intro id hid
    simp only [FileManager.rolled, List.mem_append, List.mem_cons, List.not_mem_nil, or_false,
      reduceCtorEq, false_or, Task.createIndexFile.injEq] at hid ⊢
    have hlog : id < fm.activeFileId + 1 ∧ fm.indexLogs id = packLog (L id) := by
      rcases hid with hid | rfl
      · exact ⟨Nat.lt_succ_of_lt (h.tasks id hid).1, (h.tasks id hid).2⟩
      · exact ⟨Nat.lt_succ_self _, h.active⟩
    rw [Function.update_of_ne (Nat.ne_of_lt hlog.1)]
    exact hlog
  files := h.files

theorem Listed.runTask {i : ℕ} (h : fm.Listed L) (hrun : fm.runTask i = some fm') :
    fm'.Listed L := by
  have htasks : ∀ task ∈ fm'.tasks, task ∈ fm.tasks := fun _ => mem_tasks_of_runTask hrun
  have hfiles := fun id bytes => @indexFiles_of_runTask fm i id fm' bytes hrun
  obtain ⟨tasks, indexFiles, rfl⟩ := runTask_eq hrun
  refine ⟨h.active, fun id hid => h.tasks id (htasks _ hid), fun id bytes hid => ?_⟩
  rcases hfiles id bytes hid with hid | ⟨htask, rfl⟩
  · exact h.files id bytes hid
  · exact (h.tasks id htask).2

theorem Listed.retryTask {i : ℕ} (h : fm.Listed L) (hrun : fm.retryTask i = some fm') :
    fm'.Listed L := by
  obtain ⟨task, htask, rfl⟩ := retryTask_eq hrun
  refine ⟨h.active, fun j hj => h.tasks j ?_, h.files⟩
  rcases List.mem_append.mp hj with hj | hj
  · exact List.mem_of_mem_eraseIdx hj
  · exact List.mem_singleton.mp hj ▸ htask

end FileManager

namespace Appenders

variable {s s' : Appenders} {a : Action} {fm : FileManager} {L : Log} {as : List Action}

/-- A record is allocated only in a file that has no index file yet. -/
def Unlisted (s : Appenders) : Action → Prop
  | .next t =>
    match s.calls t with
    | .allocate e c => (s.fm.allocatePack e c).isSome → s.fm.indexFiles c.fileId = none
    | _ => True
  | _ => True

instance (s : Appenders) : (a : Action) → Decidable (s.Unlisted a)
  | .next t =>
    match h : s.calls t with
    | .allocate e c =>
      decidable_of_iff ((s.fm.allocatePack e c).isSome → s.fm.indexFiles c.fileId = none)
        (by simp only [Unlisted, h])
    | .idle | .start _ | .rollOver _ _ | .returned _ _ | .failed _ _ =>
      .isTrue (by simp only [Unlisted, h])
  | .call _ _ | .task _ | .retry _ => .isTrue trivial

/-- Index logs and index files list the records of their files, and so do the logs that
callers have captured. -/
structure Lists (s : Appenders) : Prop where
  listed : s.fm.Listed s.log
  captured : ∀ t e id, s.calls t = .allocate e (Appending.captured id) →
    s.fm.indexLogs id = packLog (s.log id)

/-- One call goes on, and the rest of the system with it. -/
theorem Lists.update {c : Appending} (h : s.Lists) (hlisted : fm.Listed L) (t : ℕ)
    (hlogs : ∀ id, s.fm.indexLogs id = packLog (s.log id) → s.fm.Writable s.log id →
      fm.indexLogs id = packLog (L id)) (hinv : s.Inv)
    (hc : ∀ e id, c = .allocate e (Appending.captured id) → fm.indexLogs id = packLog (L id)) :
    Lists { fm, calls := Function.update s.calls t c, log := L } := by
  refine ⟨hlisted, fun u e id hu => ?_⟩
  dsimp only at hu
  by_cases hut : u = t
  · subst hut
    rw [Function.update_self] at hu
    exact hc e id hu
  · rw [Function.update_of_ne hut] at hu
    have hok := hinv.calls u
    rw [hu] at hok
    obtain ⟨-, j, hj, hwritable⟩ := hok
    obtain rfl : id = j := congrArg Capture.fileId hj
    exact hlogs id (h.captured u e id hu) hwritable

theorem Effect.lists (he : Effect s a s') (hinv : s.Inv) (h : s.Lists) (hu : s.Unlisted a) :
    s'.Lists := by
  cases he with
  | @call t => exact h.update h.listed t (fun _ hlog _ => hlog) hinv (by simp)
  | @capture t e hc =>
    refine h.update h.listed t (fun _ hlog _ => hlog) hinv ?_
    rintro x id hx
    obtain ⟨-, hid⟩ := Appending.allocate.inj hx
    obtain rfl : s.fm.activeFileId = id := congrArg Capture.fileId hid
    -- What is captured is the log of the active file.
    exact h.listed.active
  | @allocated t id e hc hs hid hfits =>
    have hle : (s.fm.dataFiles id).writeIndex ≤ kMaxFileBytes :=
      hid.write ▸ (hinv.holds.files id).fits
    -- The allocation succeeds, so the file has no index file yet.
    have hsome : (s.fm.allocatePack e (Appending.captured id)).isSome := by
      rw [FileManager.allocatePack_eq hs hle, hid.write, if_pos hfits]
      rfl
    simp only [Unlisted, hc] at hu
    exact h.update (h.listed.addRecord hid (hu hsome)) t
      (fun j hlog _ => FileManager.indexLogs_addRecord hid hlog) hinv (by simp)
  | @full t id e hc hfull => exact h.update h.listed t (fun _ hlog _ => hlog) hinv (by simp)
  | @rolled t e hc hwrap =>
    have hfresh := (hinv.holds.fresh (s.fm.activeFileId + 1) (Nat.lt_succ_self _)).2
    refine h.update (h.listed.rolled hfresh) t (fun id hlog hid => ?_) hinv (by simp)
    have hne : id ≠ s.fm.activeFileId + 1 := Nat.ne_of_lt (Nat.lt_succ_of_le hid.le_active)
    simp only [FileManager.rolled, Function.update_of_ne hne, hlog]
  | @raced t => exact h.update h.listed t (fun _ hlog _ => hlog) hinv (by simp)
  | task hrun =>
    obtain ⟨tasks, indexFiles, heq⟩ := FileManager.runTask_eq hrun
    exact ⟨h.listed.runTask hrun, fun t e id hc => by rw [heq]; exact h.captured t e id hc⟩
  | retry hrun =>
    obtain ⟨task, -, heq⟩ := FileManager.retryTask_eq hrun
    exact ⟨h.listed.retryTask hrun, fun t e id hc => by rw [heq]; exact h.captured t e id hc⟩

/-- All along every run in which no record is allocated in a file that has an index file,
every index file lists exactly the records of its file: its bytes decode to one entry for
each of them, in order, and so does what an `IndexIterator` yields, but for entries of type
`kEmpty`. -/
theorem decode_of_run (h : fm.Holds L) (hlisted : fm.Listed L)
    (hmeets : Meets step (fun s a => s.Within a ∧ s.Unlisted a) (start fm L) as)
    (hrun : Run step (start fm L) as s) {id : ℕ} {bytes : Bytes}
    (hbytes : s.fm.indexFiles id = some bytes) :
    (s.fm.dataFiles id).Holds (s.log id) ∧ IndexEntry.decode bytes 0 = logFrom 0 (s.log id) ∧
      (IndexEntry.unPackAll bytes).filter (fun x => x.type ≠ .kEmpty) = logFrom 0 (s.log id) := by
  -- The invariant of the run.
  have hall : s.Inv ∧ s.Lists := by
    refine hrun.invariant (P := fun v => v.Inv ∧ v.Lists) hmeets
      ⟨Inv.start h, hlisted, fun t e id hc => by cases hc⟩ ?_
    rintro v a w ⟨hv, hl⟩ ⟨hw, hu⟩ hstep
    have he := hv.effect hw hstep
    exact ⟨hv.step hw he, he.lists hv hl hu⟩
  obtain ⟨hinv, hlists⟩ := hall
  have hfile := hinv.holds.files id
  rw [hlists.listed.files id bytes hbytes]
  refine ⟨hfile, ?_, ?_⟩
  · -- `UnPackAll` of the bytes that were written.
    obtain ⟨rest, hdecode, -, hnil⟩ := decode_packLog hfile.storable hfile.fits 0
    rw [hdecode, hnil rfl, List.append_nil]
  · -- The recovery reads the slack of the file as well, as empty entries.
    obtain ⟨rest, hdecode, hempty, -⟩ :=
      decode_packLog hfile.storable hfile.fits (Platform.slack (packLog (s.log id)).length)
    have hrest : rest.filter (fun x => x.type ≠ .kEmpty) = [] := by
      refine List.filter_eq_nil_iff.mpr fun x hx => ?_
      simp [hempty x hx]
    rw [IndexEntry.unPackAll, hdecode, List.filter_append, hrest, List.append_nil]
    refine List.filter_eq_self.mpr fun x hx => ?_
    obtain ⟨⟨o, e⟩, hmem, rfl⟩ := List.mem_map.mp hx
    obtain ⟨o', hat, rfl⟩ := mem_framesFrom_iff.mp hmem
    have htype : e.type = .kSet ∨ e.type = .kDelete := (hfile.storable e hat.mem).type
    rcases htype with htype | htype <;> simp [IndexEntry.ofRecord, htype]

/-- One call captured file `i` and has not allocated yet; another one rolled over from it, and
the executor has not written its index file yet. -/
structure Overtaken (s : Appenders) (i : ℕ) (e e' : Entry) : Prop where
  holds : s.fm.Holds s.log
  active : s.fm.activeFileId = i + 1
  writable : s.fm.Writable s.log i
  records : s.log i = [e]
  empty : s.log (i + 1) = []
  captured : s.calls 1 = .allocate e (Appending.captured i)
  started : s.calls 2 = .start e'
  others : ∀ t, t ≠ 1 → t ≠ 2 → s.calls t = .idle ∨ ∃ e loc, s.calls t = .returned e loc
  logged : s.fm.indexLogs i = packLog [e]
  tasks : s.fm.tasks = [.syncFile i, .createIndexFile i]
  none : s.fm.indexFiles i = none

variable {e e' : Entry} {i : ℕ}

/-- Such a state is reached from every state with an empty active file. -/
theorem exists_overtaken (hs : e.Storable) (hs' : e'.Storable) (hsize' : e'.size = kMaxFileBytes)
    (h : fm.Holds L) (hlisted : fm.Listed L) (hL : L fm.activeFileId = []) (htasks : fm.tasks = [])
    (hnone : fm.indexFiles fm.activeFileId = none) (hwrap : fm.activeFileId + 1 < 2 ^ 32) :
    ∃ s, Run step (start fm L)
        [.call 0 e, .next 0, .next 0, .call 1 e, .next 1, .call 2 e', .next 2, .next 2, .next 2] s ∧
      s.Overtaken fm.activeFileId e e' := by
  obtain ⟨i, hi⟩ : ∃ i, fm.activeFileId = i := ⟨_, rfl⟩
  have hpos := e.size_pos
  have hfits : fm.Fits e := by
    rw [FileManager.Fits, h.write, hL]
    exact (Nat.zero_add _).trans_le hs.size
  -- The first record.
  obtain ⟨s₁, hrun₁, hfm₁, hlog₁, hcalls₁⟩ :=
    exists_appended (t := 0) (s := start fm L) h.toLaid hs rfl hfits
  dsimp only [start] at hfm₁ hlog₁ hcalls₁
  have hholds₁ : s₁.fm.Holds s₁.log := by
    rw [hfm₁, hlog₁]
    exact h.addRecord hs hfits
  have hi₁ : s₁.fm.activeFileId = i := by rw [hfm₁, ← hi]; rfl
  have hlogi : s₁.log i = [e] := by
    rw [hlog₁, hi, Log.add, Function.update_self, ← hi, hL, List.nil_append]
  have hlogs₁ : s₁.fm.indexLogs i = packLog [e] := by
    rw [← hlogi, hfm₁, hlog₁, ← hi]
    exact FileManager.indexLogs_addRecord h.writable hlisted.active
  -- The second call captures the file.
  have hstep₂ : s₁.step (.call 1 e) = some (s₁.setCall 1 (.start e)) :=
    step_call (by rw [hcalls₁]; rfl)
  have hstep₃ : (s₁.setCall 1 (.start e)).step (.next 1) =
      some ((s₁.setCall 1 (.start e)).setCall 1 (.allocate e (Appending.captured i))) := by
    have hcapture : (s₁.setCall 1 (.start e)).fm.capture = Appending.captured i := by
      rw [← hi₁]
      exact hholds₁.capture_eq
    rw [← hcapture]
    exact step_capture (by simp [setCall])
  obtain ⟨s₃, hs₃⟩ : ∃ s₃,
      s₃ = (s₁.setCall 1 (.start e)).setCall 1 (.allocate e (Appending.captured i)) := ⟨_, rfl⟩
  have hcalls₃ : s₃.calls = Function.update s₁.calls 1 (.allocate e (Appending.captured i)) := by
    simp only [hs₃, setCall, Function.update_idem]
  have hfm₃ : s₃.fm = s₁.fm ∧ s₃.log = s₁.log := by rw [hs₃]; exact ⟨rfl, rfl⟩
  -- The third one does not fit behind the first record, and rolls over.
  have hfull : ¬ s₃.fm.Fits e' := by
    have hwrite : s₁.fm.activeOffset = totalSize (s₁.log s₁.fm.activeFileId) := hholds₁.write
    rw [hi₁, hlogi, totalSize_cons] at hwrite
    rw [hfm₃.1, FileManager.Fits, hwrite]
    omega
  have hroll : s₃.fm.rollOver .sound s₃.fm.capture = (.kOk, s₁.fm.rolled) := by
    rw [hfm₃.1]
    exact hholds₁.rollOver_capture (by rw [hi₁, ← hi]; exact hwrap)
  obtain ⟨s₄, hrun₄, hfm₄, hlog₄, hcalls₄⟩ := exists_rolled (t := 2)
    (by rw [hfm₃.1, hfm₃.2]; exact hholds₁.toLaid) hs' (by rw [hcalls₃, hcalls₁]; rfl) hfull hroll
  rw [hfm₃.2] at hlog₄
  refine ⟨s₄, run_append.mpr ⟨s₁, hrun₁, run_cons.mpr ⟨_, hstep₂,
    run_cons.mpr ⟨s₃, hs₃ ▸ hstep₃, hrun₄⟩⟩⟩, ?_⟩
  rw [hi]
  refine { holds := ?_, active := ?_, writable := ?_, records := ?_, empty := ?_, captured := ?_,
           started := ?_, others := ?_, logged := ?_, tasks := ?_, none := ?_ }
  · rw [hfm₄, hlog₄]
    exact hholds₁.rolled
  · rw [hfm₄, ← hi₁]
    rfl
  · rw [hfm₄, hlog₄, ← hi₁]
    exact hholds₁.writable.rolled
  · rw [hlog₄, hlogi]
  · rw [hlog₄]
    exact (hholds₁.fresh (i + 1) (by rw [hi₁]; exact Nat.lt_succ_self i)).2
  · rw [hcalls₄, hcalls₃]
    rfl
  · rw [hcalls₄, Function.update_self]
  · intro t ht₁ ht₂
    rw [hcalls₄, hcalls₃, Function.update_of_ne ht₂, Function.update_of_ne ht₁, hcalls₁]
    by_cases ht₀ : t = 0
    · subst ht₀
      exact Or.inr ⟨e, _, Function.update_self ..⟩
    · exact Or.inl (Function.update_of_ne ht₀ _ _)
  · rw [hfm₄, FileManager.rolled, hi₁, ← hlogs₁]
    exact Function.update_of_ne (Nat.ne_of_lt (Nat.lt_succ_self i)) _ _
  · rw [hfm₄, FileManager.rolled, hi₁, hfm₁, FileManager.addRecord]
    simp [htasks]
  · rw [hfm₄, hfm₁, ← hnone, hi]
    rfl

/-- The executor writes the index file, then the calls go on: the one that captured file `i`
leaves a record in it that the index file does not list. -/
theorem Overtaken.exists_late (h : s.Overtaken i e e') (hs : e.Storable) (hs' : e'.Storable)
    (hsize : e.size + e.size ≤ kMaxFileBytes) :
    ∃ s', Run step s [.task 1, .next 1, .next 2, .next 2] s' ∧
      (∀ t, s'.calls t = .idle ∨ ∃ e loc, s'.calls t = .returned e loc) ∧
      (s'.fm.dataFiles i).Holds [e, e] ∧ s'.fm.indexFiles i = some (packLog [e]) := by
  have hne : i ≠ i + 1 := Nat.ne_of_lt (Nat.lt_succ_self i)
  -- The task runs between the two appends, and seals what the log has by then.
  have hnonempty : packLog [e] ≠ [] := by
    simp [packLog, logFrom, framesFrom, IndexEntry.pack]
  obtain ⟨fm, hfm⟩ : ∃ fm : FileManager, fm =
      { s.fm with
        tasks := [.syncFile i]
        indexFiles := Function.update s.fm.indexFiles i (some (packLog [e])) } := ⟨_, rfl⟩
  have htask : s.fm.runTask 1 = some fm := by
    rw [hfm, FileManager.runTask, h.tasks]
    simp [FileManager.createIndexFile, h.logged, h.none, hnonempty]
  have hstep₁ : s.step (.task 1) = some { s with fm } := by
    simp only [step, htask, Option.map_some]
  have hwritable : fm.Writable s.log i := by
    rw [hfm]
    exact ⟨h.writable.le_active, h.writable.write⟩
  -- The second call goes on, on the file it captured.
  have hwrite : (fm.dataFiles i).writeIndex = e.size := by
    rw [hwritable.write, h.records, totalSize_cons]
    rfl
  have hsome : fm.allocatePack e (Appending.captured i) = some (⟨i, e.size⟩, fm.addRecord i e) := by
    rw [FileManager.allocatePack_eq hs (by omega), hwrite, if_pos hsize]
  have hholds : (fm.addRecord i e).Holds (s.log.add i e) := by
    refine (h.holds.runTask htask).addRecord_writable hs hwritable ?_
    rw [h.records, totalSize_cons]
    exact hsize
  obtain ⟨u, hu⟩ : ∃ u : Appenders, u =
      { fm := fm.addRecord i e
        calls := Function.update s.calls 1 (.returned e ⟨i, e.size⟩)
        log := s.log.add i e } := ⟨_, rfl⟩
  have hstep₂ : step { s with fm } (.next 1) = some u := hu ▸ step_allocated h.captured hsome
  -- And so does the third one, on the next file.
  have hactive : u.fm.activeFileId = i + 1 := by rw [hu, ← h.active, hfm]; rfl
  have hlaid : u.fm.Laid u.log := hu ▸ hholds.toLaid
  have hfits : u.fm.Fits e' := by
    have hempty : u.log (i + 1) = [] := by
      rw [hu]
      exact (Function.update_of_ne hne.symm _ _).trans h.empty
    rw [FileManager.Fits, hlaid.write, hactive, hempty]
    exact (Nat.zero_add _).trans_le hs'.size
  have hrun := run_fits (t := 2) (s := u) hlaid hs' (by rw [hu]; exact h.started) hfits
  refine ⟨_, run_cons.mpr ⟨_, hstep₁, run_cons.mpr ⟨u, hstep₂, hrun⟩⟩, fun t => ?_, ?_, ?_⟩
  · by_cases ht₂ : t = 2
    · subst ht₂
      refine Or.inr ⟨e', ⟨u.fm.activeFileId, u.fm.activeOffset⟩, ?_⟩
      simp
    · by_cases ht₁ : t = 1
      · subst ht₁
        refine Or.inr ⟨e, ⟨i, e.size⟩, ?_⟩
        simp [hu]
      · simp only [hu, Function.update_of_ne ht₂, Function.update_of_ne ht₁]
        exact h.others t ht₁ ht₂
  · -- The file holds both records.
    have hfile := (hlaid.addRecord hs' hfits).files i
    have hboth : u.log i = [e, e] := by
      rw [hu]
      exact (Function.update_self ..).trans (by rw [h.records]; rfl)
    rw [hactive, Log.add, Function.update_of_ne hne, hboth] at hfile
    rw [hactive]
    exact hfile
  · -- Its index file holds the first one only.
    rw [hu, hfm]
    exact Function.update_self ..

end Appenders

end

section

variable [Platform] {opt : Options} {name : Bytes}

theorem newFiles_listed : (Session.newFiles opt name).Listed fun _ => [] where
  active := by simp [Session.newFiles, packLog, logFrom, framesFrom]
  tasks := by simp [Session.newFiles]
  files := by simp [Session.newFiles]

end

namespace Appenders

open scoped Reference

/-- The record that `Put` builds for a small key and value. -/
abbrev smallEntry : Entry := DBImpl.entryOf Reference.options (.put [107] [118])

/-- The files of a new database after a record that leaves 40 bytes in file 1. -/
def nearlyFull (e : Entry) : FileManager :=
  { Session.newFiles Reference.options [] with
    dataFiles := Function.update (fun _ => DataFile.absent) 1
      { data := Padded.write (fun _ => 0) 0 e.pack
        writeIndex := kMaxFileBytes - 40
        linked := true }
    indexLogs := Function.update (fun _ => []) 1 (IndexEntry.ofRecord 0 e).pack }

theorem addRecord_eq_nearlyFull {e : Entry} (hs : e.Storable)
    (hsize : e.size = kMaxFileBytes - 40) :
    (Session.newFiles Reference.options []).addRecord 1 e = nearlyFull e := by
  simp [FileManager.addRecord, nearlyFull, Session.newFiles, DataFile.absent, hs.sizeOf_eq, hsize]

/-- The call that appended it has returned. -/
def nearlyFullAppended (e : Entry) : Appenders :=
  { fm := nearlyFull e
    calls := Function.update (fun _ => .idle) 0 (.returned e ⟨1, 0⟩)
    log := Log.add (fun _ => []) 1 e }

theorem run_nearlyFullAppended {e : Entry} (hs : e.Storable) (hsize : e.size = kMaxFileBytes - 40) :
    Run step (start (Session.newFiles Reference.options []) fun _ => [])
        [.call 0 e, .next 0, .next 0] (nearlyFullAppended e) ∧
      Meets step (fun s a => s.Within a ∧ s.Unlisted a)
        (start (Session.newFiles Reference.options []) fun _ => [])
        [.call 0 e, .next 0, .next 0] := by
  have hnew : (Session.newFiles Reference.options []).Holds fun _ => [] := Session.newFiles_holds
  have hfits : (Session.newFiles Reference.options []).Fits e := by
    rw [FileManager.Fits, hnew.write]
    exact (Nat.zero_add _).trans_le hs.size
  obtain ⟨⟨fm, calls, L⟩, hrun, rfl, rfl, rfl⟩ := exists_appended (t := 0)
    (s := start (Session.newFiles Reference.options []) fun _ => []) hnew.toLaid hs rfl hfits
  constructor
  · rw [nearlyFullAppended, ← addRecord_eq_nearlyFull hs hsize]
    exact hrun
  · refine meets_cons.mpr ⟨⟨hs, trivial⟩, fun t ht => ?_⟩
    obtain rfl := Option.some_inj.mp ((step_call rfl).symm.trans ht)
    refine meets_cons.mpr ⟨⟨trivial, trivial⟩, fun t ht => ?_⟩
    obtain rfl := Option.some_inj.mp ((step_capture rfl).symm.trans ht)
    -- No file has an index file yet.
    exact meets_cons.mpr ⟨⟨trivial, fun _ => rfl⟩, fun _ _ => meets_nil⟩

/-- Two calls have captured file 1 when a third one, whose record does not fit, rolls over. The
second one appends behind that, and then the executor writes the index file. -/
def sealedBetween : List Action :=
  [.call 1 smallEntry, .next 1, .call 2 smallEntry, .next 2, .next 1,
    .call 3 (DBImpl.entryOf Reference.options (.put [108] (List.replicate 18 1))),
    .next 3, .next 3, .next 3, .next 2, .task 1, .next 3, .next 3]

theorem decode_of_run_sealedBetween : ∃ e s bytes,
    Run step (start (Session.newFiles Reference.options []) fun _ => [])
      ([.call 0 e, .next 0, .next 0] ++ sealedBetween) s ∧
    s.fm.indexFiles 1 = some bytes ∧ (s.log 1).length = 3 ∧ (s.log 2).length = 1 ∧
    (s.fm.dataFiles 1).Holds (s.log 1) ∧ IndexEntry.decode bytes 0 = logFrom 0 (s.log 1) ∧
    (IndexEntry.unPackAll bytes).filter (fun x => x.type ≠ .kEmpty) = logFrom 0 (s.log 1) := by
  have hend : ((sealedBetween.foldlM step
      (nearlyFullAppended (Reference.filler (kMaxFileBytes - 54)))).map fun s =>
        decide ((s.fm.indexFiles 1).isSome ∧ (s.log 1).length = 3 ∧ (s.log 2).length = 1 ∧
          check step (fun s a => s.Within a ∧ s.Unlisted a)
            (nearlyFullAppended (Reference.filler (kMaxFileBytes - 54))) sealedBetween = true)) =
      some true := by
    decide +kernel
  obtain ⟨s, hrest, htrue⟩ := Option.map_eq_some_iff.mp hend
  obtain ⟨hindex, hfirst, hsecond, hcheck⟩ := of_decide_eq_true htrue
  obtain ⟨bytes, hbytes⟩ := Option.isSome_iff_exists.mp hindex
  obtain ⟨hrun, hmeets⟩ := run_nearlyFullAppended
    (Reference.filler_storable (n := kMaxFileBytes - 54) (by decide)) (Reference.size_filler _)
  have hall := run_append.mpr ⟨_, hrun, hrest⟩
  exact ⟨_, s, bytes, hall, hbytes, hfirst, hsecond, decode_of_run Session.newFiles_holds
    newFiles_listed (hmeets.append hrun (meets_of_check hcheck)) hall hbytes⟩

/-- On a new database a record can be missing from the index file of its file. -/
theorem exists_unlisted : ∃ (e e' : Entry) (s : Appenders) (bytes : Bytes),
    e.Storable ∧ e'.Storable ∧
    Run step (start (Session.newFiles Reference.options []) fun _ => [])
      [.call 0 e, .next 0, .next 0, .call 1 e, .next 1, .call 2 e', .next 2, .next 2, .next 2,
        .task 1, .next 1, .next 2, .next 2] s ∧
    (∀ t, s.calls t = .idle ∨ ∃ e loc, s.calls t = .returned e loc) ∧
    (s.fm.dataFiles 1).Holds [e, e] ∧ s.fm.indexFiles 1 = some bytes ∧
    IndexEntry.decode bytes 0 = logFrom 0 [e] := by
  obtain ⟨e', hs', hsize'⟩ := exists_filling
  have hs : smallEntry.Storable := by decide
  have hstorable : ∀ x ∈ [smallEntry], x.Storable := by simpa using hs
  have hnew : (Session.newFiles Reference.options []).Holds fun _ => [] := Session.newFiles_holds
  obtain ⟨s, hrun, hovertaken⟩ :=
    exists_overtaken hs hs' hsize' hnew newFiles_listed rfl rfl rfl (by decide)
  obtain ⟨s', hrun', hcalls, hfile, hindex⟩ := hovertaken.exists_late hs hs' (by decide)
  obtain ⟨rest, hdecode, -, hnil⟩ := decode_packLog hstorable (by decide) 0
  refine ⟨smallEntry, e', s', _, hs, hs', run_append.mpr ⟨s, hrun, hrun'⟩, hcalls, hfile, hindex,
    ?_⟩
  rw [hdecode, hnil rfl, List.append_nil]

end Appenders

end PedroDB
