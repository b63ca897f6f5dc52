import PedroDB.Compacting
import PedroDB.Concurrent
import PedroDB.FileStates
import PedroDB.Reference
import PedroDB.Session

/-!
# Compaction tasks under concurrency

No file is queued, scheduled or compacted twice at a time. A file with enough dead bytes
is not forgotten as long as no run of `Compact(id)` ends early and no bytes are counted
outside of `UpdateUnused`.

## Main results

* `Concurrent.once_place` — the task of a file is at one place at most
* `Concurrent.somewhere_place` — the task of a file with enough dead bytes is somewhere
* `Concurrent.exists_stranded` — a run that ends early leaves such a file behind
-/

namespace PedroDB.Concurrent

open Transition

section

variable [Platform] {opt : Options} {s s' : Concurrent} {a : Action} {as : List Action}
  {t : ℕ} {th : Thread} {db : DBImpl}

omit [Platform] in
@[simp] theorem place_setThread (s : Concurrent) (t : ℕ) (th : Thread) :
    (s.setThread t th).place = Function.update s.place (.thread t) th.files := by
  funext p
  cases p with
  | thread u =>
    by_cases hu : u = t
    · subst hu
      simp [place, setThread]
    · simp [place, setThread, hu]
  | _ => simp [place, setThread]

omit [Platform] in
/-- The thread has the same files as before. -/
theorem place_of_files (hfiles : th.files = (s.threads t).files) :
    (s.setThread t th).place = s.place := by
  rw [place_setThread, hfiles]
  exact Function.update_eq_self _ _

omit [Platform] in
theorem place_db (htasks : db.compactTasks = s.db.compactTasks) :
    ({ s with db } : Concurrent).place = s.place := by
  funext p
  cases p with
  | queued => exact htasks
  | _ => rfl

theorem files_compactScan (id : ℕ) (it : RecordIterator) (buffer : ReadBuffer) (db : DBImpl) :
    (db.compactScan id it buffer).1.files = [id] := by
  rcases DBImpl.compactScan_cases id it buffer db with hc | ⟨e, it', -, hc | ⟨o, hc⟩⟩ <;>
    rw [hc] <;> rfl

omit [Platform] in
theorem files_compactCheck (id : ℕ) (it : RecordIterator) (offset : ℕ) (next : Entry)
    (db : DBImpl) : (db.compactCheck id it offset next).files = [id] := by
  rcases DBImpl.compactCheck_cases id it offset next db with hc | ⟨-, -, -, hc⟩ <;> rw [hc] <;> rfl

/-! ### What happens to the tasks -/

/-- The run of `Compact(id)` ends without having compacted its file. -/
def EndsEarly (s : Concurrent) : Action → Prop
  | .fail _ => True
  | .block t opens =>
    match s.threads t with
    | .compact _ (.start id) =>
      s.db.readonly = true ∨ (s.db.fileManager.acquireDataFile id).1 ≠ .kOk
    | .compact _ (.append _ _ next) =>
      ∃ status loc fm, s.db.fileManager.append opens next = some (status, loc, fm) ∧ status ≠ .kOk
    | _ => False
  | _ => False

/-- `Compact(id)` counts the bytes of a copy that it does not install, and a file that was
not queued has enough dead bytes with them. -/
def CountsAside (opt : Options) (s : Concurrent) : Action → Prop
  | .block t _ =>
    match s.threads t with
    | .compact _ (.install _ _ next loc) =>
      (∃ dir, s.db.find next.key = some dir ∧ ¬ dir.loc < loc) ∧
        opt.threshold_bytes ≤ (s.db.fileStates loc.id).free_bytes + next.sizeOf ∧
        (s.db.fileStates loc.id).compact_state = .kNop
    | _ => False
  | _ => False

instance (s : Concurrent) : (a : Action) → Decidable (EndsEarly s a)
  | .fail _ => .isTrue trivial
  | .block t opens =>
    match h : s.threads t with
    | .compact _ (.start id) =>
      decidable_of_iff (s.db.readonly = true ∨ (s.db.fileManager.acquireDataFile id).1 ≠ .kOk)
        (by simp only [EndsEarly, h])
    | .compact _ (.append _ _ next) =>
      decidable_of_iff (∃ r ∈ s.db.fileManager.append opens next, r.1 ≠ .kOk)
        (by simp only [EndsEarly, h, Option.mem_def, Prod.exists, exists_and_right])
    | .compact _ .idle | .compact _ (.mark _) | .compact _ (.scan _ _)
    | .compact _ (.check _ _ _ _) | .compact _ (.install _ _ _ _) | .compact _ (.finish _)
    | .idle | .append _ | .index _ _ => .isFalse (by simp only [EndsEarly, h, not_false_eq_true])
  | .write _ _ | .append _ _ | .index _ | .poll | .start _ _ | .compact _ | .readonly | .task _ =>
    .isFalse id

omit [Platform] in
instance (s : Concurrent) : (a : Action) → Decidable (CountsAside opt s a)
  | .block t _ =>
    match h : s.threads t with
    | .compact _ (.install _ _ next loc) =>
      decidable_of_iff ((∃ dir ∈ s.db.find next.key, ¬ dir.loc < loc) ∧
          opt.threshold_bytes ≤ (s.db.fileStates loc.id).free_bytes + next.sizeOf ∧
          (s.db.fileStates loc.id).compact_state = .kNop)
        (by simp only [CountsAside, h, Option.mem_def])
    | .compact _ .idle | .compact _ (.start _) | .compact _ (.mark _) | .compact _ (.scan _ _)
    | .compact _ (.check _ _ _ _) | .compact _ (.append _ _ _) | .compact _ (.finish _)
    | .idle | .append _ | .index _ _ => .isFalse (by simp only [CountsAside, h, not_false_eq_true])
  | .write _ _ | .append _ _ | .index _ | .poll | .start _ _ | .compact _ | .fail _ | .readonly
  | .task _ => .isFalse id

/-- What a step does to the tasks and to the file states. -/
inductive Moves (opt : Options) (s : Concurrent) (a : Action) (s' : Concurrent) : Prop
  | same (hhints : s'.db.hints = s.db.hints) (hplace : s'.place = s.place)
  | counted (hcounts : DBImpl.Counts opt s.db.hints s'.db.hints)
      (hplace : s'.place = Function.update s.place .queued s'.db.compactTasks)
  | polled (q : Place) (xs : List ℕ) (hq : q ≠ .queued) (hxs : xs.Perm s.db.compactTasks)
      (hhints : s'.db.hints = s.db.pollCompactTask.2.hints)
      (hplace : s'.place = Function.update (Function.update s.place .queued []) q (s.place q ++ xs))
  | started (q : Place) (id : ℕ) (rest : List ℕ) (hq : q ≠ .queued) (hqs : q ≠ .scheduled)
      (hperm : (rest ++ [id]).Perm s.scheduled) (hhints : s'.db.hints = s.db.hints)
      (hplace : s'.place =
        Function.update (Function.update s.place .scheduled rest) q (s.place q ++ [id]))
  | marked (id : ℕ) (hhints : s'.db.hints = (s.db.compactMark id).hints)
      (hplace : s'.place = s.place) (hid : Somewhere s.place id)
  | aside (id n : ℕ) (hhints : s'.db.hints = { s.db.hints with
        states := Function.update s.db.fileStates id
          { s.db.fileStates id with free_bytes := (s.db.fileStates id).free_bytes + n } })
      (hplace : s'.place = s.place)
      (haside : opt.threshold_bytes ≤ (s.db.fileStates id).free_bytes + n →
        (s.db.fileStates id).compact_state = .kNop → CountsAside opt s a)
  | left (t id : ℕ) (queue : List ℕ) (hearly : EndsEarly s a)
      (ht : (s.threads t).files = id :: queue) (hhints : s'.db.hints = s.db.hints)
      (hplace : s'.place = Function.update s.place (.thread t) queue)
  | finished (t id : ℕ) (queue : List ℕ) (ht : (s.threads t).files = id :: queue)
      (hhints : s'.db.hints = { s.db.hints with
        states := Function.update s.db.fileStates id FileState.default })
      (hplace : s'.place = Function.update s.place (.thread t) queue)

theorem Moves.ofFiles {s : Concurrent} (hhints : db.hints = s.db.hints)
    (hfiles : th.files = (s.threads t).files) :
    Moves opt s a ({ s with db }.setThread t th) := by
  refine .same hhints ?_
  rw [place_of_files (s := { s with db }) hfiles]
  exact place_db (congrArg DBImpl.Hints.tasks hhints)

theorem Effect.moves (he : Effect opt s a s') : Moves opt s a s' := by
  cases he with
  | refused => exact .same rfl rfl
  | write hidle => exact .ofFiles rfl (by rw [hidle]; rfl)
  | append ht => exact .ofFiles rfl (by rw [ht]; rfl)
  | appendFail ht => exact .ofFiles rfl (by rw [ht]; rfl)
  | @index t w loc ht =>
    refine .counted (DBImpl.updateIndex_counts opt w loc s.db) ?_
    rw [place_of_files (s := { s with db := _ }) (by rw [ht]; rfl)]
    funext p
    cases p <;> simp [place, setThread]
  | poll =>
    -- All queued files are scheduled.
    refine .polled .scheduled s.db.compactTasks (by simp) (List.Perm.refl _) rfl ?_
    funext p
    cases p <;> simp [place, DBImpl.pollCompactTask]
  | @start t i id ht hi =>
    obtain ⟨hlt, rfl⟩ := List.getElem?_eq_some_iff.mp hi
    -- The worker takes the task it was handed.
    refine .started (.thread t) s.scheduled[i] (s.scheduled.eraseIdx i) (by simp) (by simp) ?_ rfl ?_
    · exact List.perm_append_comm.trans (List.getElem_cons_eraseIdx_perm hlt)
    · have hnone : s.place (.thread t) = [] := by simp [place, ht, Thread.files]
      rw [place_setThread, hnone]
      funext p
      cases p <;> simp [place, Thread.files, Compaction.files, Function.update]
  | @compact t ht =>
    -- The manual compaction takes all queued files at once.
    refine .polled (.thread t) (s.db.compactTasks.mergeSort (· ≤ ·)) (by simp)
      (List.mergeSort_perm _ _) rfl ?_
    have hnone : s.place (.thread t) = [] := by simp [place, ht, Thread.files]
    rw [place_setThread, hnone]
    funext p
    cases p <;> simp [place, Thread.files, Compaction.files, Function.update,
      DBImpl.pollCompactTask]
  | done ht => exact .ofFiles rfl (by rw [ht]; rfl)
  | next ht => exact .ofFiles rfl (by rw [ht]; rfl)
  | opened ht => exact .ofFiles rfl (by rw [ht]; rfl)
  | @refusedRun t id _ queue ht hreadonly =>
    refine .left t id queue ?_ (by rw [ht]; rfl) rfl (place_setThread _ _ _)
    simp [EndsEarly, ht, hreadonly]
  | @openFail t id _ queue _ _ ht hne hopen =>
    refine .left t id queue ?_ (by rw [ht]; rfl) rfl ?_
    · simp [EndsEarly, ht, hopen, hne]
    · rw [place_setThread, place_db rfl]
      rfl
  | @mark t id _ queue ht =>
    have hfiles : (s.threads t).files = [id] ++ queue := by rw [ht]; rfl
    -- The state of the file changes, and its place does not.
    refine .marked id rfl ?_ ⟨.thread t, by simp [place, hfiles]⟩
    rw [place_of_files (s := { s with db := _ }) (by rw [ht]; rfl)]
    exact place_db rfl
  | scan ht =>
    refine .same rfl ?_
    rw [place_of_files (s := { s with buffers := _ })
      (by rw [ht]; simp only [Thread.files, files_compactScan]; rfl)]
    funext p
    cases p <;> rfl
  | check ht =>
    exact .ofFiles rfl (by rw [ht]; simp only [Thread.files, files_compactCheck]; rfl)
  | copy ht => exact .ofFiles rfl (by rw [ht]; rfl)
  | @copyFail t id _ queue _ _ _ _ _ ht hne happend =>
    refine .left t id queue ?_ (by rw [ht]; rfl) rfl ?_
    · simp only [EndsEarly, ht]
      exact ⟨_, _, _, happend, hne⟩
    · rw [place_setThread, place_db rfl]
      rfl
  | @install t id _ queue it next loc ht =>
    have hplace : ∀ db : DBImpl, db.compactTasks = s.db.compactTasks →
        ({ s with db }.setThread t (.compact queue (.scan id it))).place = s.place := by
      intro db htasks
      rw [place_of_files (s := { s with db }) (by rw [ht]; rfl)]
      exact place_db htasks
    unfold DBImpl.compactInstall
    split
    · -- Nothing was counted, or `UpdateUnused` would have been needed.
      exact .same rfl (hplace _ rfl)
    · next dir hfind =>
      split_ifs with hlt
      · exact .same rfl (hplace _ rfl)
      · refine .aside loc.id next.sizeOf rfl (hplace _ rfl) fun hle hnop => ?_
        simp only [CountsAside, ht]
        exact ⟨⟨dir, hfind, hlt⟩, hle, hnop⟩
  | @finish t id _ queue ht =>
    refine .finished t id queue (by rw [ht]; rfl) rfl ?_
    rw [place_setThread, place_db rfl]
    rfl
  | @fail t id queue ht =>
    exact .left t id queue trivial (by rw [ht]; rfl) rfl (place_setThread _ _ _)
  | readonly => exact .same rfl (place_db rfl)
  | task => exact .same rfl (place_db rfl)

/-! ### Tasks are at one place -/

/-- The task of a file is at one place at most, and a file with a task is not taken for
idle. -/
def Tracked (s : Concurrent) : Prop := s.db.hints.Tracked .queued s.place

/-- A file with enough dead bytes is not taken for idle, and a file that is not taken for
idle has its task somewhere. -/
def Owned (opt : Options) (s : Concurrent) : Prop := s.db.hints.Owned opt s.place

theorem Tracked.moves (h : s.Tracked) (hm : Moves opt s a s') : s'.Tracked := by
  have htasks : s.place .queued = s.db.compactTasks := rfl
  unfold Tracked at *
  cases hm with
  | same hhints hplace => rwa [hhints, hplace]
  | counted hcounts hplace => exact hplace ▸ h.counts hcounts
  | polled q xs hq hxs hhints hplace =>
    -- The queue is emptied into the other place.
    have hperm : ([] ++ xs).Perm (s.place .queued) := hxs
    refine h.of_once ?_ (hplace ▸ h.once.move hq.symm hperm) (fun id hid => ?_) fun id _ hne => ?_
    · rw [hplace, Function.update_of_ne hq.symm, Function.update_self, hhints]
      rfl
    · rw [hplace] at hid
      exact (Once.somewhere_move hq.symm hperm).mp hid
    · rw [hhints]
      simp only [DBImpl.hints, DBImpl.pollCompactTask]
      split_ifs
      · simp
      · exact hne
  | started q id rest hq hqs hperm hhints hplace =>
    -- One file moves from its place to the thread.
    refine h.of_once ?_ (hplace ▸ h.once.move hqs.symm hperm) (fun x hx => ?_) fun x _ hne => ?_
    · rw [hplace, Function.update_of_ne hq.symm, Function.update_of_ne (by simp), hhints, htasks]
      rfl
    · rw [hplace] at hx
      exact (Once.somewhere_move hqs.symm hperm).mp hx
    · rwa [hhints]
  | marked id hhints hplace hid =>
    rw [hhints, hplace]
    apply h.update h.tasks h.once fun _ _ hx => hx
    intro _
    simp
  | aside id n hhints hplace =>
    rw [hhints, hplace]
    exact h.update h.tasks h.once (fun _ _ hx => hx) (h.busy id)
  | left t id queue _ ht hhints hplace =>
    -- The thread drops the file, whose state stays as it is.
    have hp : s.place (.thread t) = id :: queue := ht
    obtain ⟨honce, hiff⟩ := h.once.leave hp
    refine h.of_once ?_ (hplace ▸ honce) (fun x hx => ?_) fun x _ hne => ?_
    · rw [hplace, Function.update_of_ne (by simp), hhints, htasks]
      rfl
    · rw [hplace] at hx
      exact ((hiff x).mp hx).1
    · rwa [hhints]
  | finished t id queue ht hhints hplace =>
    have hp : s.place (.thread t) = id :: queue := ht
    obtain ⟨honce, hiff⟩ := h.once.leave hp
    rw [hhints, hplace]
    apply h.update _ honce
    · intro x _ hx
      exact ((hiff x).mp hx).1
    · -- The state that is erased is that of a file without task.
      intro hid
      exact absurd rfl ((hiff id).mp hid).2
    · rw [Function.update_of_ne (by simp)]
      rfl

theorem Owned.moves (h : s.Owned opt) (htracked : s.Tracked) (hpos : 0 < opt.threshold_bytes)
    (hearly : ¬ EndsEarly s a) (haside : ¬ CountsAside opt s a) (hm : Moves opt s a s') :
    s'.Owned opt := by
  unfold Owned at *
  cases hm with
  | same hhints hplace => rwa [hhints, hplace]
  | counted hcounts hplace => exact hplace ▸ h.counts htracked.tasks hcounts
  | polled q xs hq hxs hhints hplace =>
    have hperm : ([] ++ xs).Perm (s.place .queued) := hxs
    -- The poll marks what it takes as queued, and counts nothing.
    have hstate : ∀ id, (s'.db.hints.states id).free_bytes = (s.db.fileStates id).free_bytes ∧
        ((s'.db.hints.states id).compact_state ≠ .kNop ↔
          id ∈ s.db.compactTasks ∨ (s.db.fileStates id).compact_state ≠ .kNop) := by
      intro id
      rw [hhints]
      simp only [DBImpl.hints, DBImpl.pollCompactTask]
      split_ifs with hid <;> simp [hid]
    refine ⟨fun id hle => ?_, fun id hne => ?_⟩
    · rw [(hstate id).1] at hle
      exact (hstate id).2.mpr (Or.inr (h.eligible id hle))
    · rw [hplace, Once.somewhere_move hq.symm hperm]
      exact ((hstate id).2.mp hne).elim (fun hid => ⟨.queued, hid⟩) (h.owned id)
  | started q id rest hq hqs hperm hhints hplace =>
    refine ⟨fun x hle => ?_, fun x hne => ?_⟩
    · rw [hhints] at hle ⊢
      exact h.eligible x hle
    · rw [hhints] at hne
      rw [hplace, Once.somewhere_move hqs.symm hperm]
      exact h.owned x hne
  | marked id hhints hplace hid =>
    rw [hhints, hplace]
    apply h.update fun _ _ hx => hx
    · intro _
      simp
    · -- The file that is marked has a place.
      intro _
      exact hid
  | aside id n hhints hplace hcount =>
    rw [hhints, hplace]
    apply h.update fun _ _ hx => hx
    · -- More bytes are counted without a task, which the guard excludes.
      intro hle hnop
      exact haside (hcount hle hnop)
    · exact h.owned id
  | left t id queue h' => exact absurd h' hearly
  | finished t id queue ht hhints hplace =>
    have hp : s.place (.thread t) = id :: queue := ht
    obtain ⟨-, hiff⟩ := htracked.once.leave hp
    rw [hhints, hplace]
    apply h.update
    · intro x hne hx
      exact (hiff x).mpr ⟨hx, hne⟩
    · -- The erased file has no dead bytes, and the threshold is positive.
      intro hle
      exact absurd hpos (Nat.not_lt.mpr hle)
    · intro hne
      exact absurd rfl hne

/-! ### From a database that was just opened -/

omit [Platform] in
/-- The only tasks are those that the recovery has queued. -/
theorem somewhere_start {id : ℕ} : Somewhere (start db).place id ↔ id ∈ db.compactTasks := by
  constructor
  · rintro ⟨p, hp⟩
    cases p with
    | queued => exact hp
    | _ => cases hp
  · exact fun hid => ⟨.queued, hid⟩

omit [Platform] in
private theorem update_unit (f : Unit → List ℕ) (xs : List ℕ) :
    Function.update f () xs = fun _ => xs := by
  funext u
  exact Function.update_self () xs f

variable {opens : OpenData} {name : Bytes} {disk : Disk} {status : Status}
  {buffer rest : ReadBuffer}

theorem tracked_start (hopen : DBImpl.openDb opt opens name disk buffer = some (status, db, rest)) :
    (start db).Tracked := by
  have h := DBImpl.openDb_hints (P := fun h => h.Tracked () fun _ => h.tasks) ?_
    DBImpl.Hints.tracked_default hopen
  · refine ⟨rfl, ⟨fun p => ?_, fun p q x hp hq => ?_⟩, fun id hid => ?_⟩
    · cases p with
      | queued => exact h.once.nodup ()
      | _ => exact List.nodup_nil
    · cases p <;> cases q <;> first | rfl | cases hp | cases hq
    · exact h.busy id ⟨(), somewhere_start.mp hid⟩
  · intro h id unused htracked
    have hcounts : (h.updateUnused opt id unused).Tracked ()
        (Function.update (fun _ => h.tasks) () (h.updateUnused opt id unused).tasks) :=
      htracked.counts (Or.inr ⟨id, unused, rfl⟩)
    rwa [update_unit] at hcounts

theorem owned_start (hpos : 0 < opt.threshold_bytes)
    (hopen : DBImpl.openDb opt opens name disk buffer = some (status, db, rest)) :
    (start db).Owned opt := by
  have h := DBImpl.openDb_hints (P := fun h => h.Owned opt fun _ : Unit => h.tasks) ?_
    (DBImpl.Hints.owned_default hpos) hopen
  · exact ⟨h.eligible, fun id hne => somewhere_start.mpr (h.owned id hne).choose_spec⟩
  · intro h id unused howned
    have hcounts := howned.counts (q := ()) rfl (Or.inr ⟨id, unused, rfl⟩)
    rwa [update_unit] at hcounts

/-- In every state of every run, the task of a file is in one place at most: it is queued,
or scheduled, or some thread has it, and this once. -/
theorem once_place (hopen : DBImpl.openDb opt opens name disk buffer = some (.kOk, db, rest))
    (hrun : Run (step opt) (start db) as s) : Once s.place := by
  have hmeets : Meets (step opt) (fun _ _ => True) (start db) as := fun _ _ _ _ _ _ => trivial
  have h : s.Tracked := hrun.invariant hmeets (tracked_start hopen) fun t a u h _ hstep =>
    h.moves (step_effect hstep).moves
  exact h.once

/-- If no run of `Compact(id)` ends early and none counts bytes that make a file eligible
without queueing it, a registered file with enough dead bytes always has its task
somewhere. -/
theorem somewhere_place (hpos : 0 < opt.threshold_bytes)
    (hopen : DBImpl.openDb opt opens name disk buffer = some (.kOk, db, rest))
    (hmeets : Meets (step opt) (fun s a => ¬ EndsEarly s a ∧ ¬ CountsAside opt s a) (start db) as)
    (hrun : Run (step opt) (start db) as s) :
    ∀ id ∈ s.db.fileManager.metadata.files,
      opt.threshold_bytes ≤ (s.db.fileStates id).free_bytes → Somewhere s.place id := by
  have h : s.Tracked ∧ s.Owned opt := by
    refine hrun.invariant (P := fun s => s.Tracked ∧ s.Owned opt) hmeets
      ⟨tracked_start hopen, owned_start hpos hopen⟩ ?_
    rintro t a u ⟨htracked, howned⟩ ⟨hearly, haside⟩ hstep
    have hm : Moves opt t a u := (step_effect hstep).moves
    exact ⟨htracked.moves hm, howned.moves htracked hpos hearly haside hm⟩
  exact fun id _ hle => h.2.owned id (h.2.eligible id hle)

end

open scoped Reference

/-- A key is put twice, so that the first file has dead bytes; the worker polls, and a
thread starts to compact the file. -/
def putTwicePoll : List Action :=
  [.write 0 (.put [107] [118]), .append 0 .sound, .index 0,
    .write 0 (.put [107] [119]), .append 0 .sound, .index 0, .poll, .start 0 0]

theorem once_place_putTwicePoll : ∃ db rest s,
    DBImpl.openDb Reference.options .sound [] Disk.empty ReadBuffer.empty =
        some (.kOk, db, rest) ∧
      Run (step Reference.options) (start db) putTwicePoll s ∧ Once s.place := by
  obtain ⟨rest, hopen⟩ := Session.openDb_empty Reference.options [] ReadBuffer.empty
  have hsome : (putTwicePoll.foldlM (step Reference.options)
      (start (Session.newDb Reference.options []))).isSome := by decide +kernel
  obtain ⟨s, hs⟩ := Option.isSome_iff_exists.mp hsome
  exact ⟨_, rest, s, hopen, hs, once_place hopen hs⟩

/-- `Compact(1)` has appended the copy of the live record when the key is put again. The copy is
not installed, and its bytes are counted. -/
def putAside : List Action :=
  putTwicePoll ++ List.replicate 7 (.block 0 .sound) ++
    [.write 1 (.put [107] [120]), .append 1 .sound, .index 1, .block 0 .sound]

theorem somewhere_place_putAside : ∃ db rest s,
    DBImpl.openDb Reference.options .sound [] Disk.empty ReadBuffer.empty =
        some (.kOk, db, rest) ∧
      Run (step Reference.options) (start db) putAside s ∧
      1 ∈ s.db.fileManager.metadata.files ∧
      s.db.find [107] = some { entry_size := 16, loc := ⟨1, 48⟩ } ∧
      (s.db.fileStates 1).free_bytes = 48 ∧
      ∀ id ∈ s.db.fileManager.metadata.files,
        Reference.options.threshold_bytes ≤ (s.db.fileStates id).free_bytes →
          Somewhere s.place id := by
  obtain ⟨rest, hopen⟩ := Session.openDb_empty Reference.options [] ReadBuffer.empty
  have hrun : (putAside.foldlM (step Reference.options)
      (start (Session.newDb Reference.options []))).map (fun s =>
        decide (1 ∈ s.db.fileManager.metadata.files ∧
          s.db.find [107] = some { entry_size := 16, loc := ⟨1, 48⟩ } ∧
          (s.db.fileStates 1).free_bytes = 48)) = some true := by
    decide +kernel
  obtain ⟨s, hs, htrue⟩ := Option.map_eq_some_iff.mp hrun
  obtain ⟨hmem, hfind, hfree⟩ := of_decide_eq_true htrue
  have hmeets : Meets (step Reference.options)
      (fun s a => ¬ EndsEarly s a ∧ ¬ CountsAside Reference.options s a)
      (start (Session.newDb Reference.options [])) putAside := meets_of_check (by decide +kernel)
  exact ⟨_, rest, s, hopen, hs, hmem, hfind, hfree,
    somewhere_place (by decide) hopen hmeets hs⟩

/-- The database becomes read-only before the run of `Compact(1)` that the worker has
scheduled begins. -/
def putTwiceReadonly : List Action := putTwicePoll ++ [.readonly, .block 0 .sound]

/-- A file with enough dead bytes can be in no list of tasks. -/
theorem exists_stranded : ∃ db rest s id,
    DBImpl.openDb Reference.options .sound [] Disk.empty ReadBuffer.empty =
        some (.kOk, db, rest) ∧
      Run (step Reference.options) (start db) putTwiceReadonly s ∧
      id ∈ s.db.fileManager.metadata.files ∧
      Reference.options.threshold_bytes ≤ (s.db.fileStates id).free_bytes ∧
      ¬ Somewhere s.place id := by
  obtain ⟨rest, hopen⟩ := Session.openDb_empty Reference.options [] ReadBuffer.empty
  have hrun : (putTwiceReadonly.foldlM (step Reference.options)
      (start (Session.newDb Reference.options []))).map (fun s =>
        decide (1 ∈ s.db.fileManager.metadata.files ∧
          Reference.options.threshold_bytes ≤ (s.db.fileStates 1).free_bytes ∧
          s.place .queued = [] ∧ s.place .scheduled = [] ∧ s.place (.thread 0) = [])) =
            some true := by decide +kernel
  obtain ⟨s, hs, htrue⟩ := Option.map_eq_some_iff.mp hrun
  obtain ⟨hmem, hfree, hqueued, hscheduled, hthread⟩ := of_decide_eq_true htrue
  refine ⟨_, rest, s, 1, hopen, hs, hmem, hfree, ?_⟩
  rintro ⟨p, hp⟩
  cases p with
  | queued => rw [hqueued] at hp; cases hp
  | scheduled => rw [hscheduled] at hp; cases hp
  | thread t =>
    -- The other threads were never used.
    by_cases ht : t = 0
    · rw [ht, hthread] at hp
      cases hp
    · have hidle : s.threads t = .idle := threads_of_run hs (by
        intro a ha
        simp only [putTwiceReadonly, putTwicePoll, List.mem_append, List.mem_cons,
          List.not_mem_nil, or_false] at ha
        rcases ha with (rfl | rfl | rfl | rfl | rfl | rfl | rfl | rfl) | rfl | rfl <;>
          simp [Action.thread, Ne.symm ht])
      simp [place, hidle, Thread.files] at hp

end PedroDB.Concurrent
