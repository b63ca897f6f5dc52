import PedroDB.Reference
import PedroDB.Session
import PedroDB.Writers

/-!
# Synchronous writes

`Sync` syncs the file that is active when it is called, which need not be the file that the
record went to, and `HandlePut` does not look at what it returns. The file of the record is
synced by the executor if another thread rolled over meanwhile.

## Main definitions

* `Writers.Acknowledged` — what was acknowledged is on disk
* `Writers.Syncs` — what a synchronous write relies on

## Main results

* `Writers.acknowledged_of_run` — it is enough, in every run
* `Writers.exists_not_durable` — a sync that fails is not reported
-/

namespace PedroDB.Writers

open Framing Transition

section

variable [Platform] {opt : Options} {s s' : Writers} {a : Action} {L L' : Log}

variable (opt) in
/-- The record of every synchronous write that returned `kOk` is on disk. -/
def Acknowledged (s : Writers) : Prop :=
  ∀ t w loc, s.calls t = .returned w true (some loc) .kOk →
    loc.offset + (DBImpl.entryOf opt w).size ≤ s.durable loc.id

/-- A synchronous write goes into the active file, or into one that the executor has still
to sync. If its file is still active when it calls `Sync`, the sync succeeds; if not, the
executor has synced the file. -/
def Syncs (s : Writers) : Action → Prop
  | .next t =>
    match s.calls t with
    | .append _ true (.allocate e c) =>
      (s.db.fileManager.allocatePack e c).isSome →
        c.fileId = s.db.fileManager.activeFileId ∨
          Task.syncFile c.fileId ∈ s.db.fileManager.tasks
    | _ => True
  | .sync t ok =>
    match s.calls t with
    | .syncFile _ loc file =>
      if file = loc.id then ok = true else Task.syncFile loc.id ∉ s.db.fileManager.tasks
    | _ => True
  | _ => True

instance (s : Writers) : (a : Action) → Decidable (s.Syncs a)
  | .next t =>
    match h : s.calls t with
    | .append _ true (.allocate e c) =>
      decidable_of_iff ((s.db.fileManager.allocatePack e c).isSome →
          c.fileId = s.db.fileManager.activeFileId ∨
            Task.syncFile c.fileId ∈ s.db.fileManager.tasks)
        (by simp only [Syncs, h])
    | .append _ true .idle | .append _ true (.start _) | .append _ true (.rollOver _ _)
    | .append _ true (.returned _ _) | .append _ true (.failed _ _) | .append _ false _
    | .idle | .index _ _ _ | .sync _ _ | .syncFile _ _ _ | .returned _ _ _ _ =>
      .isTrue (by simp only [Syncs, h])
  | .sync t ok =>
    match h : s.calls t with
    | .syncFile _ loc file =>
      decidable_of_iff
        (if file = loc.id then ok = true else Task.syncFile loc.id ∉ s.db.fileManager.tasks)
        (by simp only [Syncs, h])
    | .idle | .append _ _ _ | .index _ _ _ | .sync _ _ | .returned _ _ _ _ =>
      .isTrue (by simp only [Syncs, h])
  | .call _ _ _ | .task _ | .retry _ => .isTrue trivial

/-! ### What becomes of a record -/

/-- A record of this size at this location is on disk, or will be synced with its file. -/
def Secured (s : Writers) (loc : Location) (size : ℕ) : Prop :=
  loc.offset + size ≤ s.durable loc.id ∨ loc.id = s.db.fileManager.activeFileId ∨
    Task.syncFile loc.id ∈ s.db.fileManager.tasks

variable (opt) in
/-- What is known about a synchronous write, wherever it stands. -/
def Kept (s : Writers) (L : Log) : Writing → Prop
  | .index w sync loc => sync = true → s.Secured loc (DBImpl.entryOf opt w).size
  | .sync w loc => s.Secured loc (DBImpl.entryOf opt w).size
  | .syncFile w loc file => s.Secured loc (DBImpl.entryOf opt w).size ∧ loc.id ≤ file ∧
      s.db.fileManager.Writable L file
  | .returned w sync loc status => sync = true → status = .kOk → ∀ l ∈ loc,
      l.offset + (DBImpl.entryOf opt w).size ≤ s.durable l.id
  | _ => True

/-- What the rest of the system may do meanwhile. -/
structure Preserves (s : Writers) (L : Log) (s' : Writers) (L' : Log) : Prop where
  grows : s.db.fileManager.Grows L s'.db.fileManager L'
  durable : ∀ id, s.durable id ≤ s'.durable id
  active : s.db.fileManager.activeFileId = s'.db.fileManager.activeFileId ∨
    Task.syncFile s.db.fileManager.activeFileId ∈ s'.db.fileManager.tasks
  tasks : ∀ id, Task.syncFile id ∈ s.db.fileManager.tasks →
    Task.syncFile id ∈ s'.db.fileManager.tasks ∨ totalSize (L id) ≤ s'.durable id

omit [Platform] in
theorem Preserves.secured {loc : Location} {e : Entry} (hp : Preserves s L s' L')
    (hloc : Located L loc e) (h : s.Secured loc e.size) : s'.Secured loc e.size := by
  rcases h with hdone | hactive | htask
  · exact Or.inl (hdone.trans (hp.durable loc.id))
  · rcases hp.active with hsame | hsealed
    · exact Or.inr (Or.inl (hactive.trans hsame))
    · exact Or.inr (Or.inr (hactive ▸ hsealed))
  · rcases hp.tasks loc.id htask with hstill | hdone
    · exact Or.inr (Or.inr hstill)
    · exact Or.inl (hloc.end_le.trans hdone)

theorem Preserves.kept {c : Writing} (hp : Preserves s L s' L')
    (hok : (c.toAppending opt).Ok s.db.fileManager L) (h : s.Kept opt L c) : s'.Kept opt L' c := by
  cases c with
  | idle => trivial
  | append => trivial
  | index w sync loc => exact fun hsync => hp.secured hok.2 (h hsync)
  | sync w loc => exact hp.secured hok.2 h
  | syncFile w loc file => exact ⟨hp.secured hok.2 h.1, h.2.1, hp.grows.writable file h.2.2⟩
  | returned w sync loc status =>
    exact fun hsync hstatus l hl => (h hsync hstatus l hl).trans (hp.durable l.id)

/-! ### What a step does to the tasks -/

omit [Platform] in
/-- A task that is not the one that runs stays scheduled. -/
theorem mem_tasks_runTask {i : ℕ} {fm fm' : FileManager} {task : Task}
    (hrun : fm.runTask i = some fm') (hmem : task ∈ fm.tasks)
    (hne : fm.tasks[i]? ≠ some task) : task ∈ fm'.tasks := by
  have herase : task ∈ fm.tasks.eraseIdx i := by
    obtain ⟨k, hk⟩ := List.mem_iff_getElem?.mp hmem
    refine List.mem_eraseIdx_iff_getElem?.mpr ⟨k, ?_, hk⟩
    rintro rfl
    exact hne hk
  rcases FileManager.runTask_cases hrun with rfl | ⟨id, again, -, -, rfl | rfl⟩
  · exact herase
  · exact List.mem_append_left _ herase
  · exact List.mem_append_left _ herase

omit [Platform] in
theorem mem_tasks_retryTask {i : ℕ} {fm fm' : FileManager} {task : Task}
    (hrun : fm.retryTask i = some fm') : task ∈ fm'.tasks ↔ task ∈ fm.tasks := by
  obtain ⟨x, hx, rfl⟩ := Option.map_eq_some_iff.mp hrun
  dsimp only
  rw [List.mem_append, List.mem_singleton]
  constructor
  · rintro (hmem | rfl)
    · exact List.mem_of_mem_eraseIdx hmem
    · exact List.mem_of_getElem? hx
  · intro hmem
    by_cases hne : task = x
    · exact Or.inr hne
    · obtain ⟨k, hk⟩ := List.mem_iff_getElem?.mp hmem
      refine Or.inl (List.mem_eraseIdx_iff_getElem?.mpr ⟨k, ?_, hk⟩)
      rintro rfl
      exact hne (Option.some_inj.mp (hk.symm.trans hx))

/-! ### One step -/

/-- All that is known in a state of a run whose steps meet the condition. -/
structure Synced (opt : Options) (s : Writers) (L : Log) : Prop where
  inv : Inv opt s L
  kept : ∀ t, s.Kept opt L (s.calls t)
  pending : ∀ id, Task.syncFile id ∈ s.db.fileManager.tasks → s.db.fileManager.Writable L id

omit [Platform] in
theorem Preserves.of_files (hfm : s'.db.fileManager = s.db.fileManager)
    (hdurable : ∀ id, s.durable id ≤ s'.durable id) : Preserves s L s' L where
  grows := by
    rw [hfm]
    exact .refl _ _
  durable := hdurable
  active := Or.inl (by rw [hfm])
  tasks := by
    intro id hid
    rw [hfm]
    exact Or.inl hid

omit [Platform] in
theorem le_durable_syncFile (s : Writers) (file id : ℕ) :
    s.durable id ≤ (s.syncFile file).durable id := by
  by_cases hid : id = file
  · subst hid
    simp [syncFile]
  · simp [syncFile, Function.update_of_ne hid]

theorem Effect.preserves (he : Effect opt s L a s' L') (h : Synced opt s L) :
    Preserves s L s' L' := by
  cases he with
  | call => exact .of_files rfl fun _ => le_rfl
  | @append t w sync c A hc he' hcalls hentry =>
    refine ⟨he'.grows, fun _ => le_rfl, ?_, ?_⟩
    · -- Only a roll-over changes the active file, and it schedules the sync of the old one.
      cases he' with
      | rolled hc' => exact Or.inr (by simp [FileManager.rolled, appenders])
      | _ => exact Or.inl rfl
    · intro id hid
      cases he' with
      | rolled hc' => exact Or.inl (List.mem_append_left _ hid)
      | _ => exact Or.inl hid
  | index => exact .of_files DBImpl.updateIndex_fileManager fun _ => le_rfl
  | capture => exact .of_files rfl fun _ => le_rfl
  | @sync t file ok =>
    cases ok with
    | false => exact .of_files rfl fun _ => le_rfl
    | true => exact .of_files rfl (le_durable_syncFile s file)
  | @synced i id fm hrun htask =>
    have hgrows : s.db.fileManager.Grows L fm L :=
      Appenders.Effect.grows (s := s.appenders opt L) (.task hrun)
    obtain ⟨tasks, indexFiles, hfm⟩ := FileManager.runTask_eq hrun
    refine ⟨hgrows, le_durable_syncFile { s with db := { s.db with fileManager := fm } } id,
      Or.inl (by rw [hfm]; rfl), fun j hj => ?_⟩
    -- The task syncs its file, and the others stay in the queue.
    by_cases hid : j = id
    · subst hid
      refine Or.inr ?_
      have hwrite := (h.pending j hj).write
      simp [syncFile, hfm, hwrite]
    · refine Or.inl (mem_tasks_runTask hrun hj fun hsame => hid ?_)
      exact Task.syncFile.inj (Option.some_inj.mp (hsame.symm.trans htask))
  | @task i fm hrun htask =>
    have hgrows : s.db.fileManager.Grows L fm L :=
      Appenders.Effect.grows (s := s.appenders opt L) (.task hrun)
    obtain ⟨tasks, indexFiles, hfm⟩ := FileManager.runTask_eq hrun
    exact ⟨hgrows, fun _ => le_rfl, Or.inl (by rw [hfm]),
      fun j hj => Or.inl (mem_tasks_runTask hrun hj (htask j))⟩
  | @retry i fm hrun =>
    have hgrows : s.db.fileManager.Grows L fm L :=
      Appenders.Effect.grows (s := s.appenders opt L) (.retry hrun)
    obtain ⟨task, -, hfm⟩ := FileManager.retryTask_eq hrun
    exact ⟨hgrows, fun _ => le_rfl, Or.inl (by rw [hfm]),
      fun j hj => Or.inl ((mem_tasks_retryTask hrun).mpr hj)⟩

namespace Synced

/-- The syncs that are scheduled are of files that are written by appenders. -/
theorem pending_step (h : Synced opt s L) (he : Effect opt s L a s' L') (id : ℕ)
    (hid : Task.syncFile id ∈ s'.db.fileManager.tasks) : s'.db.fileManager.Writable L' id := by
  have hwritable := (he.preserves h).grows.writable id
  cases he with
  | call => exact hwritable (h.pending id hid)
  | append hc he' =>
    cases he' with
    | rolled hc' =>
      have hmem : Task.syncFile id ∈ s.db.fileManager.tasks ∨
          id = s.db.fileManager.activeFileId := by
        simpa [FileManager.rolled, appenders] using hid
      rcases hmem with hmem | rfl
      · exact hwritable (h.pending id hmem)
      · exact hwritable h.inv.appenders.holds.writable
    | _ => exact hwritable (h.pending id hid)
  | index =>
    rw [DBImpl.updateIndex_fileManager] at hid
    exact hwritable (h.pending id hid)
  | capture => exact hwritable (h.pending id hid)
  | @sync t file ok =>
    cases ok with
    | false => exact hwritable (h.pending id hid)
    | true => exact hwritable (h.pending id hid)
  | synced hrun => exact hwritable (h.pending id (FileManager.mem_tasks_of_runTask hrun hid))
  | task hrun => exact hwritable (h.pending id (FileManager.mem_tasks_of_runTask hrun hid))
  | retry hrun => exact hwritable (h.pending id ((mem_tasks_retryTask hrun).mp hid))

/-- One write goes on, the others stay where they are. -/
theorem kept_update {c : Writing} {t : ℕ} (h : Synced opt s L) (hp : Preserves s L s' L')
    (hcalls : s'.calls = Function.update s.calls t c) (hc : s'.Kept opt L' c) (u : ℕ) :
    s'.Kept opt L' (s'.calls u) := by
  rw [hcalls]
  by_cases hu : u = t
  · subst hu
    rwa [Function.update_self]
  · rw [Function.update_of_ne hu]
    exact hp.kept (h.inv.appenders.calls u) (h.kept u)

/-- The record that was allocated will be synced with its file. -/
theorem kept_append {t : ℕ} {w : Write} {sync : Bool} {c : Appending} {A : Appenders}
    (hs : s.Syncs (.next t)) (hc : s.calls t = .append w sync c)
    (he : (s.appenders opt L).Effect (.next t) A) (hs' : s'.db.fileManager = A.fm) :
    s'.Kept opt L' (appending w sync (A.calls t)) := by
  have hct : (s.appenders opt L).calls t = c := by
    simp only [appenders, hc, Writing.toAppending]
  cases he with
  | capture => simp only [Appenders.setCall, Function.update_self, appending, Kept]
  | @allocated _ id e hc' hstorable hid hfits =>
    simp only [Function.update_self, appending, Kept]
    rintro rfl
    obtain rfl : c = .allocate e (Appending.captured id) := hct.symm.trans hc'
    have hwrite : (s.db.fileManager.dataFiles id).writeIndex = totalSize (L id) := hid.write
    have hroom : totalSize (L id) + e.size ≤ kMaxFileBytes := hfits
    have hsome : (s.db.fileManager.allocatePack e (Appending.captured id)).isSome := by
      rw [FileManager.allocatePack_eq hstorable (by omega), hwrite, if_pos hroom]
      rfl
    simp only [Syncs, hc] at hs
    rcases hs hsome with hactive | htask
    · exact Or.inr (Or.inl (by rw [hs']; exact hactive))
    · exact Or.inr (Or.inr (by rw [hs']; exact htask))
  | full => simp only [Appenders.setCall, Function.update_self, appending, Kept]
  | rolled => simp only [Function.update_self, appending, Kept]
  | raced => simp only [Appenders.setCall, Function.update_self, appending, Kept]

/-- A sync that meets the condition leaves the record on disk. -/
theorem durable_sync {t file : ℕ} {ok : Bool} {w : Write} {loc : Location}
    (hs : s.Syncs (.sync t ok)) (h : Synced opt s L) (hc : s.calls t = .syncFile w loc file) :
    loc.offset + (DBImpl.entryOf opt w).size ≤
      (if ok then s.syncFile file else s).durable loc.id := by
  have hok := h.inv.appenders.calls t
  have hkept := h.kept t
  simp only [appenders, hc, Writing.toAppending] at hok
  rw [hc] at hkept
  obtain ⟨hsecured, hle, hwritable⟩ := hkept
  simp only [Syncs, hc] at hs
  by_cases hfile : file = loc.id
  · -- The file of the record is still the active one, and is synced.
    rw [if_pos hfile] at hs
    have hend := Located.end_le hok.2
    subst hfile
    simp only [hs, if_true, syncFile, Function.update_self, hwritable.write]
    exact hend.trans (le_max_right _ _)
  · rw [if_neg hfile] at hs
    rcases hsecured with hdone | hactive | htask
    · cases ok with
      | false => exact hdone
      | true => exact hdone.trans (le_durable_syncFile s file loc.id)
    · exact absurd (hwritable.le_active.antisymm (hactive ▸ hle)) (hactive ▸ hfile)
    · exact absurd htask hs

/-- Every step that meets the condition keeps what is known. -/
theorem step (h : Synced opt s L) (hw : s.Within opt a) (hs : s.Syncs a)
    (he : Effect opt s L a s' L') : Synced opt s' L' := by
  have hp := he.preserves h
  refine ⟨h.inv.step hw he, fun u => ?_, fun id hid => h.pending_step he id hid⟩
  cases he with
  | @call t w sync hc =>
    refine h.kept_update hp rfl ?_ u
    -- A write that begins has stored nothing yet.
    unfold begin
    split
    · exact fun _ _ l hl => by cases hl
    · trivial
  | append hc he' => exact h.kept_update hp rfl (kept_append hs hc he' rfl) u
  | @index t w sync loc hc =>
    have hkept := h.kept t
    rw [hc] at hkept
    refine h.kept_update hp rfl ?_ u
    unfold indexed
    -- It syncs only if the status is `kOk`.
    split_ifs with hsync
    · have hok := h.inv.appenders.calls t
      simp only [appenders, hc, Writing.toAppending] at hok
      exact hp.secured hok.2 (hkept hsync.2)
    · exact fun hsync' hstatus => absurd ⟨hstatus, hsync'⟩ hsync
  | @capture t w loc hc =>
    -- What is captured is a file that holds the record.
    have hkept := h.kept t
    have hok := h.inv.appenders.calls t
    simp only [appenders, hc, Writing.toAppending] at hok
    rw [hc] at hkept
    exact h.kept_update hp rfl ⟨hp.secured hok.2 hkept, hok.1, h.inv.appenders.holds.writable⟩ u
  | @sync t file ok w loc hc =>
    have hdurable := durable_sync hs h hc
    -- The result of the sync is not looked at.
    cases ok with
    | false =>
      refine h.kept_update hp rfl ?_ u
      rintro - - l ⟨⟩
      exact hdurable
    | true =>
      refine h.kept_update hp rfl ?_ u
      rintro - - l ⟨⟩
      exact hdurable
  | synced => exact hp.kept (h.inv.appenders.calls u) (h.kept u)
  | task => exact hp.kept (h.inv.appenders.calls u) (h.kept u)
  | retry => exact hp.kept (h.inv.appenders.calls u) (h.kept u)

end Synced

/-- In every run in which each synchronous write goes into a file that is still to be
synced, and finds it synced or syncs it itself, what was acknowledged is on disk. -/
theorem acknowledged_of_run {db : DBImpl} {as : List Action} (h : db.fileManager.Holds L)
    (hpending : ∀ id, Task.syncFile id ∈ db.fileManager.tasks → db.fileManager.Writable L id)
    (hmeets : Meets (step opt) (fun s a => s.Within opt a ∧ s.Syncs a) (start db) as)
    (hrun : Run (step opt) (start db) as s) : s.Acknowledged opt := by
  have hall : ∃ L, Synced opt s L := by
    refine hrun.invariant (P := fun v => ∃ L, Synced opt v L) hmeets
      ⟨L, Inv.start h, fun _ => trivial, hpending⟩ ?_
    rintro v a u ⟨L, hv⟩ ⟨hw, hs⟩ hstep
    obtain ⟨L', he⟩ := hv.inv.effect hw hstep
    exact ⟨L', hv.step hw hs he⟩
  obtain ⟨L', hsynced⟩ := hall
  intro t w loc hret
  have hkept := hsynced.kept t
  rw [hret] at hkept
  exact hkept rfl rfl loc rfl

end

open scoped Reference

/-- A synchronous `Put` on a new database, up to the sync of the active file. -/
def putSync (ok : Bool) : List Action :=
  [.call 0 (.put [107] [118]) true, .next 0, .next 0, .next 0, .next 0, .sync 0 ok]

theorem acknowledged_of_run_putSync : ∃ s,
    Run (step Reference.options) (start (Session.newDb Reference.options [])) (putSync true) s ∧
      s.Acknowledged Reference.options := by
  have hsome : ((putSync true).foldlM (step Reference.options)
      (start (Session.newDb Reference.options []))).isSome := by decide +kernel
  obtain ⟨s, hs⟩ := Option.isSome_iff_exists.mp hsome
  have hholds : (Session.newDb Reference.options []).fileManager.Holds fun _ => [] :=
    Session.newFiles_holds
  have hpending : ∀ id, Task.syncFile id ∈ (Session.newDb Reference.options []).fileManager.tasks →
      (Session.newDb Reference.options []).fileManager.Writable (fun _ => []) id := by
    intro id hid
    cases hid
  exact ⟨s, hs, acknowledged_of_run hholds hpending (meets_of_check (by decide +kernel)) hs⟩

/-- The sync fails, and the `Put` returns `kOk`. -/
theorem exists_not_durable : ∃ s,
    Run (step Reference.options) (start (Session.newDb Reference.options [])) (putSync false) s ∧
      s.calls 0 = .returned (.put [107] [118]) true (some ⟨1, 0⟩) .kOk ∧ s.durable 1 = 0 ∧
      ¬ s.Acknowledged Reference.options := by
  have hrun : (((putSync false).foldlM (step Reference.options)
      (start (Session.newDb Reference.options []))).map fun s =>
        decide (s.calls 0 = .returned (.put [107] [118]) true (some ⟨1, 0⟩) .kOk ∧
          s.durable 1 = 0)) = some true := by decide +kernel
  obtain ⟨s, hs, htrue⟩ := Option.map_eq_some_iff.mp hrun
  obtain ⟨hret, hzero⟩ := of_decide_eq_true htrue
  refine ⟨s, hs, hret, hzero, fun hack => ?_⟩
  have hle := hack 0 _ _ hret
  rw [hzero] at hle
  exact absurd hle (by decide)

end PedroDB.Writers
