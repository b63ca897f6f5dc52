import PedroDB.Files
import PedroDB.Lib.Transition

/-!
# Threads that append to the log

`Append` captures the active file under the lock of the manager, allocates and packs under
the lock of that file, and rolls over under the lock of the manager again. Between any
two of these sections other threads and the executor take theirs.

## Main definitions

* `Appending` — where a call of `Append` stands
* `Appenders`, `Appenders.step` — the file manager and any number of calls
* `Appenders.Inv` — what holds all along a run

## Main results

* `Appenders.Inv.effect` — what a step does
* `Appenders.Inv.step` — every step keeps the invariant
-/

namespace PedroDB

open Framing Transition

/-- Where a call of `Append` stands between two atomic sections. -/
inductive Appending
  /-- Not called yet. -/
  | idle
  /-- In front of the capture. -/
  | start (e : Entry)
  /-- In front of `Allocate`, on the captured file. -/
  | allocate (e : Entry) (c : Capture)
  /-- The record did not fit into the captured file; in front of the roll-over. -/
  | rollOver (e : Entry) (c : Capture)
  /-- Returned. -/
  | returned (e : Entry) (loc : Location)
  /-- Returned, with the status of `CreateFile`. -/
  | failed (e : Entry) (status : Status)
  deriving DecidableEq

/-- The file manager and the calls of `Append`, each by one thread. -/
structure Appenders where
  fm : FileManager
  calls : ℕ → Appending
  /-- The records allocated so far in each file, in the order of the allocations. No
  section reads it. -/
  log : Log

namespace FileManager

/-- The `i`-th task fails, and is scheduled again. -/
def retryTask (i : ℕ) (fm : FileManager) : Option FileManager :=
  fm.tasks[i]?.map fun task => { fm with tasks := fm.tasks.eraseIdx i ++ [task] }

end FileManager

section

variable [Platform]

/-- The next section of `Append`. -/
def Appending.next (fm : FileManager) : Appending → Option (Appending × FileManager)
  | .idle => none
  | .start e => some (.allocate e fm.capture, fm)
  | .allocate e c =>
    match fm.allocatePack e c with
    | some (loc, fm) => some (.returned e loc, fm)
    | none => some (.rollOver e c, fm)
  | .rollOver e c =>
    match fm.rollOver .sound c with
    | (.kOk, fm) => some (.start e, fm)
    | (status, fm) => some (.failed e status, fm)
  | .returned .. => none
  | .failed .. => none

/-- The log once a call stands here after its section. -/
def Appending.addTo (L : Log) : Appending → Log
  | .returned e loc => L.add loc.id e
  | _ => L

namespace Appenders

inductive Action
  /-- Thread `t` calls `Append`. -/
  | call (t : ℕ) (e : Entry)
  /-- Thread `t` takes its next section. -/
  | next (t : ℕ)
  /-- The executor runs its `i`-th task. -/
  | task (i : ℕ)
  /-- The `i`-th task fails. -/
  | retry (i : ℕ)

/-- Thread `t` stands at `c` now. -/
def setCall (s : Appenders) (t : ℕ) (c : Appending) : Appenders :=
  { s with calls := Function.update s.calls t c }

def step (s : Appenders) : Action → Option Appenders
  | .call t e =>
    match s.calls t with
    | .idle => some (s.setCall t (.start e))
    | _ => none
  | .next t =>
    ((s.calls t).next s.fm).map fun (c, fm) =>
      { fm, calls := Function.update s.calls t c, log := c.addTo s.log }
  | .task i => (s.fm.runTask i).map fun fm => { s with fm }
  | .retry i => (s.fm.retryTask i).map fun fm => { s with fm }

/-- No call yet, on files with these records. -/
def start (fm : FileManager) (L : Log) : Appenders := { fm, calls := fun _ => .idle, log := L }

/-- Records are within the limits of their header and of a file, and a roll-over finds a
file id that is left. -/
def Within (s : Appenders) : Action → Prop
  | .call _ e => e.Storable
  | .next t =>
    match s.calls t with
    | .rollOver _ c => c.fileId = s.fm.activeFileId → s.fm.activeFileId + 1 < 2 ^ 32
    | _ => True
  | _ => True

instance (s : Appenders) (a : Action) : Decidable (s.Within a) := by
  unfold Within
  cases a with
  | call t e => exact inferInstance
  | next t =>
    dsimp only
    cases s.calls t <;> exact inferInstance
  | _ => exact inferInstance

end Appenders

/-! ### What holds all along a run -/

namespace FileManager

variable {fm fm' : FileManager} {L L' : Log} {e x : Entry} {id j : ℕ}

/-- An appender that captured the file writes behind its last record. -/
structure Writable (fm : FileManager) (L : Log) (id : ℕ) : Prop where
  le_active : id ≤ fm.activeFileId
  write : (fm.dataFiles id).writeIndex = totalSize (L id)

theorem Holds.writable (h : fm.Holds L) : fm.Writable L fm.activeFileId := ⟨le_rfl, h.write⟩

/-- What an appender does to a file that need not be the active one any more. -/
theorem Holds.addRecord_writable (h : fm.Holds L) (hs : e.Storable) (hid : fm.Writable L id)
    (hfits : totalSize (L id) + e.size ≤ kMaxFileBytes) :
    (FileManager.addRecord id e fm).Holds (L.add id e) where
  files := by
    intro j
    by_cases hj : j = id
    · subst hj
      simp only [FileManager.addRecord, Log.add, Function.update_self]
      exact (h.files j).addRecord hid.write hs (hid.write ▸ hfits) _
    · simp only [FileManager.addRecord, Log.add, Function.update_of_ne hj]
      exact h.files j
  data := h.data
  log := h.log
  write := by
    have hw : (fm.dataFiles fm.activeFileId).writeIndex = totalSize (L fm.activeFileId) := h.write
    by_cases hactive : fm.activeFileId = id
    · rw [hactive] at hw
      simp [FileManager.addRecord, activeOffset, Log.add, hactive, hw, hs.sizeOf_eq]
    · simp only [FileManager.addRecord, activeOffset, Log.add, Function.update_of_ne hactive]
      exact hw
  fresh := by
    intro j hj
    have hj' : fm.activeFileId < j := hj
    have hne : j ≠ id := Nat.ne_of_gt (hid.le_active.trans_lt hj')
    simp only [FileManager.addRecord, Log.add, Function.update_of_ne hne]
    exact h.fresh j hj'

theorem Writable.addRecord (h : fm.Writable L j) (hid : fm.Writable L id) (hs : e.Storable) :
    (FileManager.addRecord id e fm).Writable (L.add id e) j where
  le_active := h.le_active
  write := by
    by_cases hj : j = id
    · subst hj
      simp [FileManager.addRecord, Log.add, h.write, hs.sizeOf_eq]
    · simp only [FileManager.addRecord, Log.add, Function.update_of_ne hj]
      exact h.write

theorem Writable.rolled (h : fm.Writable L j) : fm.rolled.Writable L j where
  le_active := h.le_active.trans (Nat.le_succ _)
  write := by
    have hne : j ≠ fm.activeFileId + 1 := Nat.ne_of_lt (Nat.lt_succ_of_le h.le_active)
    simp only [FileManager.rolled, Function.update_of_ne hne]
    exact h.write

omit [Platform] in
theorem retryTask_eq {i : ℕ} (h : fm.retryTask i = some fm') :
    ∃ task ∈ fm.tasks, fm' = { fm with tasks := fm.tasks.eraseIdx i ++ [task] } := by
  obtain ⟨task, htask, rfl⟩ := Option.map_eq_some_iff.mp h
  exact ⟨task, List.mem_of_getElem? htask, rfl⟩

end FileManager

namespace Appending

/-- The record that a call of `Append` was given. -/
def entry : Appending → Option Entry
  | .idle => none
  | .start e | .allocate e _ | .rollOver e _ | .returned e _ | .failed e _ => some e

theorem entry_next {a a' : Appending} {fm fm' : FileManager}
    (h : a.next fm = some (a', fm')) : a'.entry = a.entry := by
  cases a with
  | idle => cases h
  | start e =>
    obtain ⟨rfl, -⟩ := Prod.mk.inj (Option.some_inj.mp h)
    rfl
  | allocate e c =>
    simp only [Appending.next] at h
    split at h
    · obtain ⟨rfl, -⟩ := Prod.mk.inj (Option.some_inj.mp h)
      rfl
    · obtain ⟨rfl, -⟩ := Prod.mk.inj (Option.some_inj.mp h)
      rfl
  | rollOver e c =>
    simp only [Appending.next] at h
    split at h
    · obtain ⟨rfl, -⟩ := Prod.mk.inj (Option.some_inj.mp h)
      rfl
    · obtain ⟨rfl, -⟩ := Prod.mk.inj (Option.some_inj.mp h)
      rfl
  | returned e loc => cases h
  | failed e status => cases h

/-- The capture of file `id`. -/
abbrev captured (id : ℕ) : Capture := ⟨id, id, some id⟩

/-- What is known about a call, wherever it stands. -/
def Ok (fm : FileManager) (L : Log) : Appending → Prop
  | .idle => True
  | .start e => e.Storable
  | .allocate e c => e.Storable ∧ ∃ id, c = captured id ∧ fm.Writable L id
  | .rollOver e c => e.Storable ∧ ∃ id, c = captured id ∧ fm.Writable L id
  | .returned e loc => loc.id ≤ fm.activeFileId ∧ Located L loc e
  | .failed .. => False

end Appending

/-- Files that are written stay writable, and records stay where they are. -/
structure FileManager.Grows (fm : FileManager) (L : Log) (fm' : FileManager) (L' : Log) :
    Prop where
  active : fm.activeFileId ≤ fm'.activeFileId
  writable : ∀ id, fm.Writable L id → fm'.Writable L' id
  located : ∀ loc e, Located L loc e → Located L' loc e

omit [Platform] in
theorem FileManager.Grows.refl (fm : FileManager) (L : Log) : fm.Grows L fm L :=
  ⟨le_rfl, fun _ h => h, fun _ _ h => h⟩

omit [Platform] in
theorem FileManager.Grows.trans {fm fm' fm'' : FileManager} {L L' L'' : Log}
    (h : fm.Grows L fm' L') (h' : fm'.Grows L' fm'' L'') : fm.Grows L fm'' L'' :=
  ⟨h.active.trans h'.active, fun id hid => h'.writable id (h.writable id hid),
    fun loc e hloc => h'.located loc e (h.located loc e hloc)⟩

omit [Platform] in
/-- A call stands where it stood while the rest of the system goes on. -/
theorem Appending.Ok.grows {fm fm' : FileManager} {L L' : Log} {c : Appending} (h : c.Ok fm L)
    (hg : fm.Grows L fm' L') : c.Ok fm' L' := by
  cases c with
  | idle => trivial
  | start e => exact h
  | allocate e c =>
    obtain ⟨hs, id, hc, hid⟩ := h
    exact ⟨hs, id, hc, hg.writable id hid⟩
  | rollOver e c =>
    obtain ⟨hs, id, hc, hid⟩ := h
    exact ⟨hs, id, hc, hg.writable id hid⟩
  | returned e loc => exact ⟨h.1.trans hg.active, hg.located loc e h.2⟩
  | failed => exact h.elim

namespace Appenders

variable {s s' : Appenders} {a : Action} {t : ℕ}

/-- The files hold the records of the log, and every call knows where it stands. -/
structure Inv (s : Appenders) : Prop where
  holds : s.fm.Holds s.log
  calls : ∀ t, (s.calls t).Ok s.fm s.log

/-- What a step can do. -/
inductive Effect (s : Appenders) : Action → Appenders → Prop
  | call {t : ℕ} {e : Entry} (hc : s.calls t = .idle) : Effect s (.call t e) (s.setCall t (.start e))
  | capture {t : ℕ} {e : Entry} (hc : s.calls t = .start e) :
      Effect s (.next t) (s.setCall t (.allocate e (Appending.captured s.fm.activeFileId)))
  | allocated {t id : ℕ} {e : Entry} (hc : s.calls t = .allocate e (Appending.captured id))
      (hs : e.Storable) (hid : s.fm.Writable s.log id)
      (hfits : totalSize (s.log id) + e.size ≤ kMaxFileBytes) :
      Effect s (.next t)
        { fm := s.fm.addRecord id e
          calls := Function.update s.calls t (.returned e (s.log.endOf id))
          log := s.log.add id e }
  | full {t id : ℕ} {e : Entry} (hc : s.calls t = .allocate e (Appending.captured id))
      (hfull : kMaxFileBytes < totalSize (s.log id) + e.size) :
      Effect s (.next t) (s.setCall t (.rollOver e (Appending.captured id)))
  | rolled {t : ℕ} {e : Entry}
      (hc : s.calls t = .rollOver e (Appending.captured s.fm.activeFileId))
      (hwrap : s.fm.activeFileId + 1 < 2 ^ 32) :
      Effect s (.next t)
        { s with fm := s.fm.rolled, calls := Function.update s.calls t (.start e) }
  | raced {t id : ℕ} {e : Entry} (hc : s.calls t = .rollOver e (Appending.captured id))
      (hid : id < s.fm.activeFileId) : Effect s (.next t) (s.setCall t (.start e))
  | task {i : ℕ} {fm : FileManager} (hrun : s.fm.runTask i = some fm) :
      Effect s (.task i) { s with fm }
  | retry {i : ℕ} {fm : FileManager} (hrun : s.fm.retryTask i = some fm) :
      Effect s (.retry i) { s with fm }

namespace Inv

theorem effect (h : s.Inv) (hw : s.Within a) (hstep : s.step a = some s') : Effect s a s' := by
  cases a with
  | call t e =>
    simp only [step] at hstep
    split at hstep
    · next hc =>
      obtain rfl := Option.some_inj.mp hstep
      exact .call hc
    · cases hstep
  | next t =>
    obtain ⟨⟨c, fm⟩, hnext, rfl⟩ := Option.map_eq_some_iff.mp hstep
    have hok := h.calls t
    rcases hc : s.calls t with _ | e | ⟨e, c⟩ | ⟨e, c⟩ | ⟨e, loc⟩ | ⟨e, status⟩ <;>
      rw [hc] at hnext hok
    · cases hnext
    · -- The capture.
      obtain ⟨rfl, rfl⟩ := Prod.mk.inj (Option.some_inj.mp hnext)
      rw [h.holds.capture_eq]
      exact .capture hc
    · -- The allocation: the captured file has room, or it is full.
      obtain ⟨hs, id, rfl, hid⟩ := hok
      have hle : (s.fm.dataFiles id).writeIndex ≤ kMaxFileBytes := hid.write ▸ (h.holds.files id).fits
      simp only [Appending.next, FileManager.allocatePack_eq hs hle, hid.write] at hnext
      split_ifs at hnext with hfits
      · obtain ⟨rfl, rfl⟩ := Prod.mk.inj (Option.some_inj.mp hnext)
        exact .allocated hc hs hid hfits
      · obtain ⟨rfl, rfl⟩ := Prod.mk.inj (Option.some_inj.mp hnext)
        exact .full hc (Nat.not_le.mp hfits)
    · obtain ⟨hs, id, rfl, hid⟩ := hok
      rcases hid.le_active.eq_or_lt with rfl | hlt
      · -- The captured file is still the active one.
        have hwrap : s.fm.activeFileId + 1 < 2 ^ 32 := by
          simp only [Within, hc] at hw
          exact hw trivial
        have hroll := h.holds.rollOver_capture hwrap
        rw [h.holds.capture_eq] at hroll
        simp only [Appending.next, hroll] at hnext
        obtain ⟨rfl, rfl⟩ := Prod.mk.inj (Option.some_inj.mp hnext)
        exact .rolled hc hwrap
      · -- Another thread has rolled over since the capture.
        simp only [Appending.next, FileManager.rollOver, ne_eq, hlt.ne, not_false_eq_true,
          if_true] at hnext
        obtain ⟨rfl, rfl⟩ := Prod.mk.inj (Option.some_inj.mp hnext)
        exact .raced hc hlt
    · cases hnext
    · cases hnext
  | task i =>
    obtain ⟨fm, hrun, rfl⟩ := Option.map_eq_some_iff.mp hstep
    exact .task hrun
  | retry i =>
    obtain ⟨fm, hrun, rfl⟩ := Option.map_eq_some_iff.mp hstep
    exact .retry hrun

end Inv

theorem Effect.grows (he : Effect s a s') : s.fm.Grows s.log s'.fm s'.log := by
  cases he with
  | allocated hc hs hid hfits =>
    exact ⟨le_rfl, fun j hj => hj.addRecord hid hs, fun loc x hloc => hloc.add _ _⟩
  | rolled hc hwrap =>
    exact ⟨Nat.le_succ _, fun j hj => hj.rolled, fun loc x hloc => hloc⟩
  | task hrun =>
    obtain ⟨tasks, indexFiles, rfl⟩ := FileManager.runTask_eq hrun
    exact ⟨le_rfl, fun j hj => ⟨hj.le_active, hj.write⟩, fun loc x hloc => hloc⟩
  | retry hrun =>
    obtain ⟨task, -, rfl⟩ := FileManager.retryTask_eq hrun
    exact ⟨le_rfl, fun j hj => ⟨hj.le_active, hj.write⟩, fun loc x hloc => hloc⟩
  | _ => exact FileManager.Grows.refl _ _

namespace Inv

/-- One call goes on, and knows where it stands then. -/
theorem update {fm : FileManager} {L : Log} (h : s.Inv) (t : ℕ) (c : Appending)
    (hholds : fm.Holds L) (hg : s.fm.Grows s.log fm L) (hc : c.Ok fm L) :
    Inv { fm, calls := Function.update s.calls t c, log := L } := by
  refine ⟨hholds, fun u => ?_⟩
  by_cases hu : u = t
  · subst hu
    simp only [Function.update_self]
    exact hc
  · simp only [Function.update_of_ne hu]
    exact (h.calls u).grows hg

/-- Every step keeps the invariant. -/
theorem step (h : s.Inv) (hw : s.Within a) (he : Effect s a s') : s'.Inv := by
  have hg := he.grows
  cases he with
  | @call t e hc => exact h.update t (.start e) h.holds hg hw
  | @capture t e hc =>
    have hok := h.calls t
    rw [hc] at hok
    exact h.update t (.allocate e _) h.holds hg ⟨hok, _, rfl, h.holds.writable⟩
  | @allocated t id e hc hs hid hfits =>
    exact h.update t (.returned e _) (h.holds.addRecord_writable hs hid hfits) hg
      ⟨hid.le_active, located_endOf s.log id e⟩
  | @full t id e hc hfull =>
    have hok := h.calls t
    rw [hc] at hok
    exact h.update t (.rollOver e _) h.holds hg hok
  | @rolled t e hc hwrap =>
    have hok := h.calls t
    rw [hc] at hok
    exact h.update t (.start e) h.holds.rolled hg hok.1
  | @raced t id e hc hid =>
    have hok := h.calls t
    rw [hc] at hok
    exact h.update t (.start e) h.holds hg hok.1
  | task hrun => exact ⟨h.holds.runTask hrun, fun u => (h.calls u).grows hg⟩
  | retry hrun =>
    obtain ⟨task, -, rfl⟩ := FileManager.retryTask_eq hrun
    refine ⟨⟨⟨h.holds.files, h.holds.data, h.holds.log, h.holds.write⟩, h.holds.fresh⟩, ?_⟩
    exact fun u => (h.calls u).grows hg

theorem start {fm : FileManager} {L : Log} (h : fm.Holds L) : (Appenders.start fm L).Inv :=
  ⟨h, fun _ => trivial⟩

/-- The invariant all along a run. -/
theorem run {as : List Action} (h : s.Inv) (hmeets : Meets Appenders.step Within s as)
    (hrun : Run Appenders.step s as s') : s'.Inv ∧ s.fm.Grows s.log s'.fm s'.log := by
  refine hrun.invariant (P := fun u => u.Inv ∧ s.fm.Grows s.log u.fm u.log) hmeets
    ⟨h, FileManager.Grows.refl _ _⟩ ?_
  rintro u a v ⟨hu, hg⟩ hw hstep
  have he := hu.effect hw hstep
  exact ⟨hu.step hw he, hg.trans he.grows⟩

end Inv

/-! ### Single sections -/

section Sections

variable {e : Entry} {c : Capture} {fm : FileManager} {loc : Location}

theorem step_call (hc : s.calls t = .idle) : s.step (.call t e) = some (s.setCall t (.start e)) := by
  simp only [step, hc]

theorem step_capture (hc : s.calls t = .start e) :
    s.step (.next t) = some (s.setCall t (.allocate e s.fm.capture)) := by
  simp only [step, hc, Appending.next, Option.map_some]
  rfl

theorem step_full (hc : s.calls t = .allocate e c) (hnone : s.fm.allocatePack e c = none) :
    s.step (.next t) = some (s.setCall t (.rollOver e c)) := by
  simp only [step, hc, Appending.next, hnone, Option.map_some]
  rfl

theorem step_allocated (hc : s.calls t = .allocate e c)
    (hsome : s.fm.allocatePack e c = some (loc, fm)) :
    s.step (.next t) = some
      { fm, calls := Function.update s.calls t (.returned e loc), log := s.log.add loc.id e } := by
  simp only [step, hc, Appending.next, hsome, Option.map_some]
  rfl

theorem step_rollOver (hc : s.calls t = .rollOver e c)
    (hroll : s.fm.rollOver .sound c = (.kOk, fm)) :
    s.step (.next t) = some
      { s with fm, calls := Function.update s.calls t (.start e) } := by
  simp only [step, hc, Appending.next, hroll, Option.map_some]
  rfl

/-- A record that fits into the active file is appended to it. -/
theorem run_fits (h : s.fm.Laid s.log) (hs : e.Storable) (hc : s.calls t = .start e)
    (hfits : s.fm.Fits e) :
    Run step s [.next t, .next t]
      { fm := s.fm.addRecord s.fm.activeFileId e
        calls := Function.update s.calls t
          (.returned e ⟨s.fm.activeFileId, s.fm.activeOffset⟩)
        log := s.log.add s.fm.activeFileId e } := by
  have hsome := h.allocatePack_capture hs
  rw [if_pos hfits] at hsome
  refine run_cons.mpr ⟨_, step_capture hc, run_cons.mpr ⟨_, step_allocated ?_ hsome, ?_⟩⟩
  · simp only [setCall, Function.update_self]
  · simp only [setCall, Function.update_idem, run_nil]

/-- A whole call, when the record fits. -/
theorem exists_appended (h : s.fm.Laid s.log) (hs : e.Storable) (hc : s.calls t = .idle)
    (hfits : s.fm.Fits e) : ∃ s', Run step s [.call t e, .next t, .next t] s' ∧
      s'.fm = s.fm.addRecord s.fm.activeFileId e ∧ s'.log = s.log.add s.fm.activeFileId e ∧
      s'.calls = Function.update s.calls t
        (.returned e ⟨s.fm.activeFileId, s.fm.activeOffset⟩) := by
  have hstart : (s.setCall t (.start e)).calls t = .start e := Function.update_self ..
  have hrun : Run step (s.setCall t (.start e)) [.next t, .next t] _ :=
    run_fits h hs hstart hfits
  refine ⟨_, run_cons.mpr ⟨_, step_call hc, hrun⟩, rfl, rfl, ?_⟩
  simp only [setCall, Function.update_idem]

/-- A call up to the roll-over, when the record does not fit. -/
theorem exists_rolled (h : s.fm.Laid s.log) (hs : e.Storable) (hc : s.calls t = .idle)
    (hfull : ¬ s.fm.Fits e) (hroll : s.fm.rollOver .sound s.fm.capture = (.kOk, fm)) :
    ∃ s', Run step s [.call t e, .next t, .next t, .next t] s' ∧ s'.fm = fm ∧ s'.log = s.log ∧
      s'.calls = Function.update s.calls t (.start e) := by
  have hnone := h.allocatePack_capture hs
  rw [if_neg hfull] at hnone
  obtain ⟨s₁, hs₁⟩ : ∃ s₁, s₁ = s.setCall t (.start e) := ⟨_, rfl⟩
  obtain ⟨s₂, hs₂⟩ : ∃ s₂, s₂ = s₁.setCall t (.allocate e s₁.fm.capture) := ⟨_, rfl⟩
  obtain ⟨s₃, hs₃⟩ : ∃ s₃, s₃ = s₂.setCall t (.rollOver e s₁.fm.capture) := ⟨_, rfl⟩
  have hfm : s₁.fm = s.fm ∧ s₂.fm = s.fm ∧ s₃.fm = s.fm := by
    rw [hs₃, hs₂, hs₁]
    exact ⟨rfl, rfl, rfl⟩
  have hstep₁ : s.step (.call t e) = some s₁ := hs₁ ▸ step_call hc
  have hstep₂ : s₁.step (.next t) = some s₂ :=
    hs₂ ▸ step_capture (by rw [hs₁]; exact Function.update_self ..)
  have hstep₃ : s₂.step (.next t) = some s₃ :=
    hs₃ ▸ step_full (by rw [hs₂]; exact Function.update_self ..) (by rw [hfm.1, hfm.2.1, hnone])
  have hstep₄ : s₃.step (.next t) =
      some { s₃ with fm, calls := Function.update s₃.calls t (.start e) } :=
    step_rollOver (by rw [hs₃]; exact Function.update_self ..) (by rw [hfm.1, hfm.2.2, hroll])
  refine ⟨_, run_cons.mpr ⟨_, hstep₁, run_cons.mpr ⟨_, hstep₂, run_cons.mpr ⟨_, hstep₃,
    run_cons.mpr ⟨_, hstep₄, run_nil.mpr rfl⟩⟩⟩⟩, rfl, ?_, ?_⟩
  · rw [hs₃, hs₂, hs₁]
    rfl
  · simp only [hs₃, hs₂, hs₁, setCall, Function.update_idem]

end Sections

end Appenders

end
end PedroDB
