import PedroDB.Appenders
import PedroDB.Sound

/-!
# Threads that write and sync

A write appends its record, section by section, updates the index, and, if it was asked to,
syncs the file that is active then. The executor syncs the files that were sealed. A file
that was synced has all bytes on disk that were written to it before.

## Main definitions

* `Writing` — where a call of `Put` or `Delete` stands
* `Writers`, `Writers.step` — the database, any number of calls, and what is on disk
* `Writers.appenders` — the calls as calls of `Append`

## Main results

* `Writers.Inv.effect`, `Writers.Inv.step` — what a step does, and what it keeps
-/

namespace PedroDB

open Transition

/-- Where a `Put` or `Delete` stands between two atomic sections. -/
inductive Writing
  /-- Not called yet. -/
  | idle
  /-- In `Append`. -/
  | append (w : Write) (sync : Bool) (a : Appending)
  /-- The record is at `loc`; in front of the index update. -/
  | index (w : Write) (sync : Bool) (loc : Location)
  /-- In front of the capture of the active file by `Sync`. -/
  | sync (w : Write) (loc : Location)
  /-- In front of the sync of the captured file. -/
  | syncFile (w : Write) (loc : Location) (file : ℕ)
  /-- Returned. -/
  | returned (w : Write) (sync : Bool) (loc : Option Location) (status : Status)
  deriving DecidableEq

/-- The database, the calls, each by one thread, and how many bytes of each file are on
disk. -/
structure Writers where
  db : DBImpl
  calls : ℕ → Writing
  durable : ℕ → ℕ

namespace Writers

inductive Action
  /-- Thread `t` calls `Put` or `Delete`. -/
  | call (t : ℕ) (w : Write) (sync : Bool)
  /-- Thread `t` takes its next section. -/
  | next (t : ℕ)
  /-- The file that thread `t` syncs is on disk, or could not be written there. -/
  | sync (t : ℕ) (ok : Bool)
  /-- The executor runs its `i`-th task. -/
  | task (i : ℕ)
  /-- The `i`-th task fails. -/
  | retry (i : ℕ)

section

variable [Platform] (opt : Options)

/-- Thread `t` stands at `c` now. -/
def setCall (s : Writers) (t : ℕ) (c : Writing) : Writers :=
  { s with calls := Function.update s.calls t c }

/-- All that was written to file `id` is on disk. -/
def syncFile (s : Writers) (id : ℕ) : Writers :=
  { s with
    durable := Function.update s.durable id
      (max (s.durable id) (s.db.fileManager.dataFiles id).writeIndex) }

/-- The beginning of `HandlePut`. -/
def begin (w : Write) (sync : Bool) (db : DBImpl) : Writing :=
  match db.prepare opt w with
  | .error status => .returned w sync none status
  | .ok e => .append w sync (.start e)

/-- Where a write stands once its `Append` stands at `a`. -/
def appending (w : Write) (sync : Bool) : Appending → Writing
  | .returned _ loc => .index w sync loc
  | .failed _ status => .returned w sync none status
  | a => .append w sync a

/-- Where a write stands once the index is updated. -/
def indexed (w : Write) (sync : Bool) (loc : Location) (status : Status) : Writing :=
  if status = .kOk ∧ sync = true then .sync w loc else .returned w sync (some loc) status

/-- The next section of a call, but for the sync of a file. -/
def next (s : Writers) (t : ℕ) : Option Writers :=
  match s.calls t with
  | .append w sync a =>
    (a.next s.db.fileManager).map fun (a, fileManager) =>
      { s with
        db := { s.db with fileManager }
        calls := Function.update s.calls t (appending w sync a) }
  | .index w sync loc =>
    let (status, db) := s.db.updateIndex opt w loc
    some { s with db, calls := Function.update s.calls t (indexed w sync loc status) }
  | .sync w loc =>
    match s.db.fileManager.activeDataFile with
    | none => some (s.setCall t (.returned w true (some loc) .kOk))
    | some file => some (s.setCall t (.syncFile w loc file))
  | _ => none

def step (s : Writers) : Action → Option Writers
  | .call t w sync =>
    match s.calls t with
    | .idle => some (s.setCall t (begin opt w sync s.db))
    | _ => none
  | .next t => s.next opt t
  | .sync t ok =>
    match s.calls t with
    | .syncFile w loc file =>
      -- `HandlePut` does not look at what `Sync` returns.
      some ((if ok then s.syncFile file else s).setCall t (.returned w true (some loc) .kOk))
    | _ => none
  | .task i =>
    (s.db.fileManager.runTask i).map fun fileManager =>
      let s' := { s with db := { s.db with fileManager } }
      match s.db.fileManager.tasks[i]? with
      | some (.syncFile id) => s'.syncFile id
      | _ => s'
  | .retry i =>
    (s.db.fileManager.retryTask i).map fun fileManager =>
      { s with db := { s.db with fileManager } }

/-- No call yet. -/
def start (db : DBImpl) : Writers := { db, calls := fun _ => .idle, durable := fun _ => 0 }

/-- Keys and stored values fit their header, and a roll-over finds a file id that is left. -/
def Within (s : Writers) : Action → Prop
  | .call _ w _ => w.Representable opt
  | .next t =>
    match s.calls t with
    | .append _ _ (.rollOver _ c) =>
      c.fileId = s.db.fileManager.activeFileId → s.db.fileManager.activeFileId + 1 < 2 ^ 32
    | _ => True
  | _ => True

instance (s : Writers) (a : Action) : Decidable (s.Within opt a) := by
  unfold Within
  cases a with
  | call t w sync => exact inferInstance
  | next t =>
    dsimp only
    split <;> exact inferInstance
  | _ => exact inferInstance

end

end Writers

/-! ### Writes as appenders -/

section

variable [Platform] {opt : Options}

variable (opt) in
/-- A write as a call of `Append`. -/
def Writing.toAppending : Writing → Appending
  | .idle => .idle
  | .append _ _ a => a
  | .index w _ loc => .returned (DBImpl.entryOf opt w) loc
  | .sync w loc => .returned (DBImpl.entryOf opt w) loc
  | .syncFile w loc _ => .returned (DBImpl.entryOf opt w) loc
  | .returned w _ (some loc) _ => .returned (DBImpl.entryOf opt w) loc
  | .returned _ _ none _ => .idle

namespace Writers

variable (opt) in
/-- The writes as calls of `Append`, on files with these records. -/
def appenders (s : Writers) (L : Log) : Appenders :=
  { fm := s.db.fileManager, calls := fun t => (s.calls t).toAppending opt, log := L }

theorem toAppending_appending {w : Write} {sync : Bool} {a : Appending}
    (hentry : a.entry = some (DBImpl.entryOf opt w)) (hfailed : ∀ e status, a ≠ .failed e status) :
    (appending w sync a).toAppending opt = a := by
  cases a with
  | idle => cases hentry
  | start e => rfl
  | allocate e c => rfl
  | rollOver e c => rfl
  | returned e loc =>
    obtain rfl := Option.some_inj.mp hentry
    rfl
  | failed e status => exact absurd rfl (hfailed e status)

/-- The files hold the records of the log, and every write knows where it stands. -/
structure Inv (opt : Options) (s : Writers) (L : Log) : Prop where
  appenders : (s.appenders opt L).Inv
  entry : ∀ t w sync a, s.calls t = .append w sync a → a.entry = some (DBImpl.entryOf opt w)

variable {s s' : Writers} {L L' : Log} {a : Action}

/-- What a step can do. -/
inductive Effect (opt : Options) (s : Writers) (L : Log) : Action → Writers → Log → Prop
  | call {t : ℕ} {w : Write} {sync : Bool} (hc : s.calls t = .idle) :
      Effect opt s L (.call t w sync) (s.setCall t (begin opt w sync s.db)) L
  | append {t : ℕ} {w : Write} {sync : Bool} {a : Appending} {A : Appenders}
      (hc : s.calls t = .append w sync a) (he : (s.appenders opt L).Effect (.next t) A)
      (hcalls : A.calls = Function.update (s.appenders opt L).calls t (A.calls t))
      (hentry : (A.calls t).entry = some (DBImpl.entryOf opt w)) :
      Effect opt s L (.next t)
        { s with
          db := { s.db with fileManager := A.fm }
          calls := Function.update s.calls t (appending w sync (A.calls t)) } A.log
  | index {t : ℕ} {w : Write} {sync : Bool} {loc : Location} (hc : s.calls t = .index w sync loc) :
      Effect opt s L (.next t)
        { s with
          db := (s.db.updateIndex opt w loc).2
          calls := Function.update s.calls t
            (indexed w sync loc (s.db.updateIndex opt w loc).1) } L
  | capture {t : ℕ} {w : Write} {loc : Location} (hc : s.calls t = .sync w loc) :
      Effect opt s L (.next t)
        (s.setCall t (.syncFile w loc s.db.fileManager.activeFileId)) L
  | sync {t file : ℕ} {ok : Bool} {w : Write} {loc : Location}
      (hc : s.calls t = .syncFile w loc file) :
      Effect opt s L (.sync t ok)
        ((if ok then s.syncFile file else s).setCall t (.returned w true (some loc) .kOk)) L
  | synced {i id : ℕ} {fm : FileManager} (hrun : s.db.fileManager.runTask i = some fm)
      (htask : s.db.fileManager.tasks[i]? = some (.syncFile id)) :
      Effect opt s L (.task i) ({ s with db := { s.db with fileManager := fm } }.syncFile id) L
  | task {i : ℕ} {fm : FileManager} (hrun : s.db.fileManager.runTask i = some fm)
      (htask : ∀ id, s.db.fileManager.tasks[i]? ≠ some (.syncFile id)) :
      Effect opt s L (.task i) { s with db := { s.db with fileManager := fm } } L
  | retry {i : ℕ} {fm : FileManager} (hrun : s.db.fileManager.retryTask i = some fm) :
      Effect opt s L (.retry i) { s with db := { s.db with fileManager := fm } } L

namespace Inv

/-- The part of a step that is one of `Append`. -/
theorem append_effect {t : ℕ} {w : Write} {sync : Bool} {c : Appending} (h : Inv opt s L)
    (hw : s.Within opt (.next t)) (hc : s.calls t = .append w sync c) {c' : Appending}
    {fm : FileManager} (hnext : c.next s.db.fileManager = some (c', fm)) :
    ∃ A, (s.appenders opt L).Effect (.next t) A ∧ A.fm = fm ∧ A.calls t = c' ∧
      A.calls = Function.update (s.appenders opt L).calls t c' := by
  have hct : (s.appenders opt L).calls t = c := by
    simp only [Writers.appenders, hc, Writing.toAppending]
  have hstep : (s.appenders opt L).step (.next t) = some
      { fm, calls := Function.update (s.appenders opt L).calls t c', log := c'.addTo L } := by
    simp only [Appenders.step, hct]
    rw [show (s.appenders opt L).fm = s.db.fileManager from rfl, hnext]
    rfl
  refine ⟨_, h.appenders.effect ?_ hstep, rfl, Function.update_self .., rfl⟩
  simp only [Appenders.Within, hct]
  cases c with
  | rollOver e c =>
    simp only [Within, hc] at hw
    exact hw
  | _ => trivial

theorem effect (h : Inv opt s L) (hw : s.Within opt a) (hstep : s.step opt a = some s') :
    ∃ L', Effect opt s L a s' L' := by
  cases a with
  | call t w sync =>
    simp only [step] at hstep
    split at hstep
    · next hc =>
      obtain rfl := Option.some_inj.mp hstep
      exact ⟨L, .call hc⟩
    · cases hstep
  | next t =>
    simp only [step, Writers.next] at hstep
    rcases hc : s.calls t with _ | ⟨w, sync, c⟩ | ⟨w, sync, loc⟩ | ⟨w, loc⟩ | ⟨w, loc, file⟩ |
      ⟨w, sync, loc, status⟩ <;> rw [hc] at hstep
    · cases hstep
    · -- A section of `Append`, which is one of the appenders.
      obtain ⟨⟨c', fm⟩, hnext, rfl⟩ := Option.map_eq_some_iff.mp hstep
      obtain ⟨A, he, rfl, rfl, hcalls⟩ := h.append_effect hw hc hnext
      refine ⟨A.log, .append hc he hcalls ?_⟩
      rw [Appending.entry_next hnext, h.entry t w sync c hc]
    · -- The index update.
      obtain rfl := Option.some_inj.mp hstep
      exact ⟨L, .index hc⟩
    · -- The sync captures the active file, which may be another one by now.
      have hdata : s.db.fileManager.activeDataFile = some s.db.fileManager.activeFileId :=
        h.appenders.holds.data
      rw [hdata] at hstep
      obtain rfl := Option.some_inj.mp hstep
      exact ⟨L, .capture hc⟩
    · cases hstep
    · cases hstep
  | sync t ok =>
    simp only [step] at hstep
    split at hstep
    · next hc =>
      obtain rfl := Option.some_inj.mp hstep
      exact ⟨L, .sync hc⟩
    · cases hstep
  | task i =>
    obtain ⟨fm, hrun, rfl⟩ := Option.map_eq_some_iff.mp hstep
    dsimp only
    split
    · -- A task that syncs a file makes its records durable.
      next id htask => exact ⟨L, .synced hrun htask⟩
    · next hno => exact ⟨L, .task hrun fun id hid => hno id hid⟩
  | retry i =>
    obtain ⟨fm, hrun, rfl⟩ := Option.map_eq_some_iff.mp hstep
    exact ⟨L, .retry hrun⟩

/-- One write goes on, and knows where it stands then. -/
theorem update {db : DBImpl} {c : Writing} {durable : ℕ → ℕ} (h : Inv opt s L) (t : ℕ)
    (hholds : db.fileManager.Holds L')
    (hg : s.db.fileManager.Grows L db.fileManager L')
    (hok : (c.toAppending opt).Ok db.fileManager L')
    (hentry : ∀ w sync a, c = .append w sync a → a.entry = some (DBImpl.entryOf opt w)) :
    Inv opt { db, calls := Function.update s.calls t c, durable } L' where
  appenders := by
    have hcalls : (fun u => (Function.update s.calls t c u).toAppending opt) =
        Function.update (s.appenders opt L).calls t (c.toAppending opt) := by
      funext u
      by_cases hu : u = t
      · subst hu
        simp only [Function.update_self]
      · simp only [Function.update_of_ne hu, Writers.appenders]
    have hinv := h.appenders.update t (c.toAppending opt) hholds hg hok
    rwa [← hcalls] at hinv
  entry := by
    intro u w sync a hu
    dsimp only at hu
    by_cases hut : u = t
    · subst hut
      rw [Function.update_self] at hu
      exact hentry w sync a hu
    · rw [Function.update_of_ne hut] at hu
      exact h.entry u w sync a hu

/-- What `HandlePut` goes on with is a record within the limits. -/
theorem begin_ok {w : Write} {sync : Bool} {fm : FileManager} (hw : w.Representable opt)
    (db : DBImpl) : ((begin opt w sync db).toAppending opt).Ok fm L ∧
      ∀ w' sync' a, begin opt w sync db = .append w' sync' a →
        a.entry = some (DBImpl.entryOf opt w') := by
  have hsizeOf : (DBImpl.entryOf opt w).sizeOf = (DBImpl.entryOf opt w).size := u32_of_lt hw.size
  unfold begin DBImpl.prepare
  by_cases hro : db.readonly = true
  · rw [if_pos hro]
    exact ⟨trivial, by simp⟩
  · rw [if_neg hro]
    by_cases hbig : kMaxFileBytes < (DBImpl.entryOf opt w).sizeOf
    · rw [if_pos hbig]
      exact ⟨trivial, by simp⟩
    · rw [if_neg hbig]
      refine ⟨DBImpl.entryOf_storable hw.key (hsizeOf ▸ Nat.not_lt.mp hbig), ?_⟩
      rintro w' sync' a ⟨⟩
      rfl

theorem step (h : Inv opt s L) (hw : s.Within opt a) (he : Effect opt s L a s' L') :
    Inv opt s' L' := by
  have hg : s.db.fileManager.Grows L s.db.fileManager L := .refl _ _
  have hholds : s.db.fileManager.Holds L := h.appenders.holds
  cases he with
  | @call t w sync hc =>
    obtain ⟨hok, hentry⟩ := begin_ok hw s.db
    exact h.update t hholds hg hok hentry
  | @append t w sync c A hc he hcalls hentry =>
    -- The appender's guard is that of the write.
    have hA : A.Inv := h.appenders.step (by
      cases c with
      | rollOver e c =>
        simp only [Appenders.Within, Writers.appenders, hc, Writing.toAppending]
        simp only [Within, hc] at hw
        exact hw
      | _ => simp only [Appenders.Within, Writers.appenders, hc, Writing.toAppending]) he
    have hok := hA.calls t
    -- No append fails, so the write does not end here.
    have hfailed : ∀ e status, A.calls t ≠ .failed e status := by
      intro e status hfailed
      rw [hfailed] at hok
      exact hok.elim
    refine h.update t hA.holds he.grows ?_ ?_
    · rw [toAppending_appending hentry hfailed]
      exact hok
    · intro w' sync' a ha
      generalize A.calls t = c' at *
      cases c' <;> simp_all [appending]
  | @index t w sync loc hc =>
    have hok := h.appenders.calls t
    simp only [Writers.appenders, hc, Writing.toAppending] at hok
    -- The index update leaves the files alone.
    have hfm : (s.db.updateIndex opt w loc).2.fileManager = s.db.fileManager :=
      DBImpl.updateIndex_fileManager
    refine h.update t (hfm ▸ hholds) (hfm ▸ hg) ?_ ?_
    · rw [hfm]
      unfold indexed
      split_ifs
      · exact hok
      · exact hok
    · intro w' sync' a ha
      unfold indexed at ha
      split_ifs at ha
  | @capture t w loc hc =>
    have hok := h.appenders.calls t
    simp only [Writers.appenders, hc, Writing.toAppending] at hok
    exact h.update t hholds hg hok (by simp)
  | @sync t file ok w loc hc =>
    have hok := h.appenders.calls t
    simp only [Writers.appenders, hc, Writing.toAppending] at hok
    cases ok with
    | false => exact h.update t hholds hg hok (by simp)
    | true => exact h.update t hholds hg hok (by simp)
  | @synced i id fm hrun htask =>
    -- The queue is that of the appenders.
    have hstep : (s.appenders opt L).Effect (.task i) { s.appenders opt L with fm } := .task hrun
    have hwithin : (s.appenders opt L).Within (.task i) := trivial
    exact ⟨h.appenders.step hwithin hstep, h.entry⟩
  | @task i fm hrun htask =>
    have hstep : (s.appenders opt L).Effect (.task i) { s.appenders opt L with fm } := .task hrun
    have hwithin : (s.appenders opt L).Within (.task i) := trivial
    exact ⟨h.appenders.step hwithin hstep, h.entry⟩
  | @retry i fm hrun =>
    have hstep : (s.appenders opt L).Effect (.retry i) { s.appenders opt L with fm } := .retry hrun
    have hwithin : (s.appenders opt L).Within (.retry i) := trivial
    exact ⟨h.appenders.step hwithin hstep, h.entry⟩

theorem start {db : DBImpl} (h : db.fileManager.Holds L) : Inv opt (Writers.start db) L :=
  ⟨Appenders.Inv.start h, by intro t w sync a hc; cases hc⟩

end Inv

end Writers

end

end PedroDB
