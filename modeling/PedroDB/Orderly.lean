import PedroDB.Crash
import PedroDB.Theorems.ConcurrentWrites

/-!
# Threads that keep out of each other's way

Threads write and compact at once. The index stays sound, and each run of `Compact(id)` leaves
no record behind it that the index leads to, or will lead to, as long as no run scans the active
file or passes over a record in flight, and no tombstone in flight is removed.

## Main definitions

* `Thread.landing`, `Thread.Publishes` — the record that a thread has in flight
* `Concurrent.Prevails`, `Concurrent.Releases` — what an index update and a removal leave behind
* `Concurrent.Orderly` — the condition on the steps
* `Concurrent.Turn` — what a step does then
* `Concurrent.Tidy` — what holds all along a run that meets it

## Main results

* `Concurrent.Tidy.turn`, `Concurrent.Tidy.step` — one step
-/

namespace PedroDB

open Transition

/-- Where the record is that the thread has appended, and has still to update the index for. -/
def Thread.landing : Thread → Option Location
  | .index _ loc => some loc
  | .compact _ (.install _ _ _ loc) => some loc
  | _ => none

/-- The write that the thread was called for, and has not returned from. -/
def Thread.called : Thread → Option Write
  | .append w | .index w _ => some w
  | _ => none

/-- The index update of the thread may lead to this location. -/
def Thread.Publishes (loc : Location) : Thread → Prop
  | .index w l => l = loc ∧ w.value ≠ []
  | .compact _ (.install _ _ _ l) => l = loc
  | _ => False

theorem Thread.Publishes.landing {loc : Location} {th : Thread} (h : th.Publishes loc) :
    th.landing = some loc := by
  unfold Thread.Publishes at h
  split at h
  · exact congrArg some h.1
  · exact congrArg some h
  · exact h.elim

/-- Only a tombstone is not published. -/
theorem Thread.publishes_or_deletes {loc : Location} {th : Thread} (h : th.landing = some loc) :
    th.Publishes loc ∨ ∃ w, th = .index w loc ∧ w.value = [] := by
  unfold Thread.landing at h
  split at h
  · next w l =>
    obtain rfl := Option.some_inj.mp h
    by_cases hvalue : w.value = []
    · exact Or.inr ⟨w, rfl, hvalue⟩
    · exact Or.inl ⟨rfl, hvalue⟩
  · exact Or.inl (Option.some_inj.mp h)
  · cases h

namespace Compaction.Scans

variable [Platform] {c : Compaction} {db : DBImpl} {pend pend' : Location → Prop} {L : Log}
  {buffer : ReadBuffer} {id : ℕ}

omit [Platform] in
/-- Other records are in flight, and those that were not stand at the end of their file. -/
theorem of_pend (h : c.Scans db pend L buffer) (hpend : ∀ loc, pend' loc → pend loc ∨
      totalSize (L loc.id) ≤ loc.offset ∧ ∀ id, c = .finish id → loc.id ≠ id) :
    c.Scans db pend' L buffer := by
  refine h.mono ⟨fun id => ⟨[], (List.append_nil _).symm⟩, fun loc hl => ?_, fun loc hp => ?_,
    subset_rfl⟩ fun id hc loc hl hid => ?_
  · rcases hl with hindex | hp
    · exact Or.inl (Or.inl hindex)
    · exact (hpend loc hp).imp Or.inr And.left
  · exact (hpend loc hp).imp_right And.left
  · exact hl.imp_right fun hp => (hpend loc hp).resolve_right fun hnew => hnew.2 id hc hid

/-- Another file is removed. -/
theorem compactFinish (h : c.Scans db pend L buffer) (hne : id ∉ c.files)
    (hcopy : ∀ i it next loc, c = .install i it next loc → loc.id ≠ id) :
    c.Scans (db.compactFinish id) pend L buffer := by
  have hkeep : ∀ i, i ≠ id → i ∈ db.fileManager.metadata.files →
      i ∈ (db.compactFinish id).fileManager.metadata.files := by
    intro i hi hmem
    rw [DBImpl.compactFinish, FileManager.removeFile_files, Finset.mem_erase]
    exact ⟨hi, hmem⟩
  have hfile : ∀ i, c.files = [i] → i ∈ db.fileManager.metadata.files →
      i ∈ (db.compactFinish id).fileManager.metadata.files := by
    intro i hi
    refine hkeep i ?_
    rintro rfl
    exact hne (hi ▸ List.mem_singleton_self i)
  -- The index is as before, and so is what the run has passed.
  have hbusy : ∀ {i it next pre post}, Busy db pend L buffer i it next pre post →
      Busy (db.compactFinish id) pend L buffer i it next pre post :=
    fun hb => ⟨hb.records, hb.ready, hb.passed, hb.type⟩
  cases c with
  | idle => trivial
  | start i => trivial
  | mark i => exact hfile i rfl h
  | scan i it =>
    obtain ⟨hid, pre, post, hat⟩ := h
    exact ⟨hfile i rfl hid, pre, post, hat.records, hat.ready, hat.passed⟩
  | check i it offset next =>
    obtain ⟨hid, pre, post, hb, hoff⟩ := h
    exact ⟨hfile i rfl hid, pre, post, hbusy hb, hoff⟩
  | append i it next =>
    obtain ⟨hid, pre, post, hb, hno⟩ := h
    exact ⟨hfile i rfl hid, pre, post, hbusy hb, hno⟩
  | install i it next loc =>
    obtain ⟨hid, pre, post, hb, hno, hloc, hlt, hmem⟩ := h
    exact ⟨hfile i rfl hid, pre, post, hbusy hb, hno, hloc, hlt,
      hkeep loc.id (hcopy i it next loc rfl) hmem⟩
  | finish i => exact ⟨hfile i rfl h.1, h.2⟩

end Compaction.Scans

/-- The record goes to the active file, or to a new one that opens, and ends before that file
does. -/
def FileManager.HasRoom (fm : FileManager) (opens : OpenData) (e : Entry) : Prop :=
  ¬ fm.Wraps e ∧ (¬ fm.Fits e → opens (fm.activeFileId + 1) = .kOk) ∧ ¬ fm.Fills e

instance (fm : FileManager) (opens : OpenData) (e : Entry) : Decidable (fm.HasRoom opens e) :=
  inferInstanceAs (Decidable (_ ∧ (¬ _ → _ = _) ∧ _))

/-- Then `Append` returns, and appends the record. -/
theorem FileManager.HasRoom.append [Platform] {fm fm' : FileManager} {opens : OpenData} {e : Entry}
    {L : Log} {status : Status} {loc : Location} (hroom : fm.HasRoom opens e) (h : fm.Holds L)
    (hs : e.Storable) (happend : fm.append opens e = some (status, loc, fm')) :
    status = .kOk ∧ loc = fm.nextLoc e ∧ fm' = fm.appended e := by
  rw [h.append_eq_of_opens hs hroom.1 hroom.2.1, Option.some_inj, Prod.mk.injEq,
    Prod.mk.injEq] at happend
  exact ⟨happend.1.symm, happend.2.1.symm, happend.2.2.symm⟩

/-- A run of `Compact(id)` that scans on is still on its file, and has nothing in flight. -/
theorem DBImpl.compactScan_on [Platform] (id : ℕ) (it : RecordIterator) (buffer : ReadBuffer)
    (db : DBImpl) :
    (∀ queue, (Thread.compact queue (db.compactScan id it buffer).1).landing = none) ∧
      ∀ f, Session.Passing f (db.compactScan id it buffer).1 → id = f := by
  rcases DBImpl.compactScan_cases id it buffer db with hc | ⟨e, it', -, hc | ⟨o, hc⟩⟩
  all_goals
    rw [hc]
    exact ⟨fun _ => rfl, fun _ hf => hf⟩

/-- It is so, too, when it has looked the record up. -/
theorem DBImpl.compactCheck_on (id : ℕ) (it : RecordIterator) (offset : ℕ) (next : Entry)
    (db : DBImpl) :
    (∀ queue, (Thread.compact queue (db.compactCheck id it offset next)).landing = none) ∧
      ∀ f, Session.Passing f (db.compactCheck id it offset next) → id = f := by
  rcases DBImpl.compactCheck_cases id it offset next db with hc | ⟨dir, -, -, hc⟩
  all_goals
    rw [hc]
    exact ⟨fun _ => rfl, fun _ hf => hf⟩

namespace Concurrent

/-- A step of the worker, the executor or a compaction. -/
def Action.Background : Action → Prop
  | .write .. | .append .. | .index _ => False
  | _ => True

theorem Action.Background.ne_write {a : Action} (ha : a.Background) (t : ℕ) (w : Write) :
    a ≠ .write t w := by
  rintro rfl
  exact ha

theorem Action.Background.ne_index {a : Action} (ha : a.Background) (t : ℕ) : a ≠ .index t := by
  rintro rfl
  exact ha

section

variable [Platform] (s : Concurrent)

/-- The location may be published by a thread. -/
def Pending (loc : Location) : Prop := ∃ t, (s.threads t).Publishes loc

/-- A record of the key that stands behind `loc` is one of a write in flight, or repeats `e`. -/
def Prevails (e : Entry) (loc : Location) : Prop :=
  ∀ r ∈ s.db.fileManager.recorded, r.2.key = e.key → loc < r.1 → r.2 = e ∨ s.Waits e.key r.1

/-- Without the file, each record of an absent key is one of a write in flight, or has a
tombstone behind it. -/
def Releases (id : ℕ) : Prop :=
  ∀ r ∈ s.db.fileManager.recorded, r.1.id ≠ id → r.2.type = .kSet → s.db.find r.2.key = none →
    s.Waits r.2.key r.1 ∨ ∃ r' ∈ s.db.fileManager.recorded, r'.1.id ≠ id ∧ r'.2.key = r.2.key ∧
      r'.2.type = .kDelete ∧ r.1 < r'.1

/-- Records are within the limits and leave room behind them, and new files open. An index
update prevails over the records behind its own. A run of `Compact(id)` scans a sealed file,
passes over no record in flight, and copies what the index still leads to. It is the only one that
runs on the file when it removes it, and leaves what the absent keys need. -/
def Orderly (opt : Options) : Action → Prop
  | .write _ w => w.Representable opt
  | .append t opens =>
    match s.threads t with
    | .append w => s.db.fileManager.HasRoom opens (DBImpl.entryOf opt w)
    | _ => True
  | .index t =>
    match s.threads t with
    | .index w loc => s.Prevails (DBImpl.entryOf opt w) loc
    | _ => True
  | .block t opens =>
    match s.threads t with
    | .compact _ (.mark id) => id ≠ s.db.fileManager.activeFileId
    | .compact _ (.check id _ offset _) => ∀ u, (s.threads u).landing ≠ some ⟨id, offset⟩
    | .compact _ (.append _ _ next) =>
      s.db.fileManager.HasRoom opens next ∧ s.db.recordOf next.key = some next
    | .compact _ (.finish id) =>
      (∀ u queue c, u ≠ t → s.threads u = .compact queue c → id ∉ c.files) ∧
        (∀ u w loc, s.threads u = .index w loc → w.value = [] → loc.id ≠ id) ∧ s.Releases id
    | _ => True
  | .readonly => False
  | _ => True

variable {s} in
theorem Orderly.within {opt : Options} {a : Action} (hg : s.Orderly opt a) : s.Within opt a := by
  cases a with
  | write t w => exact hg
  | append t opens =>
    simp only [Orderly, Within] at hg ⊢
    split
    · next ht =>
      rw [ht] at hg
      exact hg.1
    · trivial
  | block t opens =>
    simp only [Orderly, Within] at hg ⊢
    split
    · next hc =>
      rw [hc] at hg
      exact hg.1.1
    · trivial
  | _ => trivial

end

variable [Platform] {opt : Options} {s s' : Concurrent} {a : Action} {L L' : Log}

/-- What an orderly step does to the database, to the records and to the threads. -/
inductive Turn (opt : Options) (s : Concurrent) (L : Log) : Action → Concurrent → Log → Prop
  | refused {t : ℕ} {w : Write} {status : Status} (ht : s.threads t = .idle)
      (hprepare : DBImpl.prepare opt w s.db = .error status) : Turn opt s L (.write t w) s L
  | called {t : ℕ} {w : Write} {e : Entry} (ht : s.threads t = .idle)
      (hprepare : DBImpl.prepare opt w s.db = .ok e) :
      Turn opt s L (.write t w) (s.setThread t (.append w)) L
  | appended {t : ℕ} {opens : OpenData} {w : Write} (ht : s.threads t = .append w)
      (hs : (DBImpl.entryOf opt w).Storable)
      (hroom : s.db.fileManager.HasRoom opens (DBImpl.entryOf opt w)) :
      Turn opt s L (.append t opens)
        ({ s with
          db := { s.db with
            fileManager := s.db.fileManager.appended (DBImpl.entryOf opt w) } }.setThread t
          (.index w (s.db.fileManager.nextLoc (DBImpl.entryOf opt w))))
        (L.add (s.db.fileManager.nextLoc (DBImpl.entryOf opt w)).id (DBImpl.entryOf opt w))
  | indexed {t : ℕ} {w : Write} {loc : Location} (ht : s.threads t = .index w loc) :
      Turn opt s L (.index t)
        ({ s with db := (DBImpl.updateIndex opt w loc s.db).2 }.setThread t .idle) L
  | copied {t id : ℕ} {opens : OpenData} {queue : List ℕ} {it : RecordIterator} {next : Entry}
      (ht : s.threads t = .compact queue (.append id it next)) (hs : next.Storable)
      (hroom : s.db.fileManager.HasRoom opens next) :
      Turn opt s L (.block t opens)
        ({ s with
          db := { s.db with fileManager := s.db.fileManager.appended next } }.setThread t
          (.compact queue (.install id it next (s.db.fileManager.nextLoc next))))
        (L.add (s.db.fileManager.nextLoc next).id next)
  | installed {t id : ℕ} {opens : OpenData} {queue : List ℕ} {it : RecordIterator} {next : Entry}
      {loc : Location} (ht : s.threads t = .compact queue (.install id it next loc)) :
      Turn opt s L (.block t opens)
        ({ s with db := s.db.compactInstall next loc }.setThread t (.compact queue (.scan id it))) L
  | removed {t id : ℕ} {opens : OpenData} {queue : List ℕ}
      (ht : s.threads t = .compact queue (.finish id)) :
      Turn opt s L (.block t opens)
        ({ s with db := s.db.compactFinish id }.setThread t (.compact queue .idle)) L
  | moved {a : Action} {t : ℕ} {th : Thread} {buffer : ReadBuffer} {db : DBImpl}
      {scheduled : List ℕ} (ha : a.Background) (hsound : db.Sound L) (hfind : db.find = s.db.find)
      (hmetadata : db.fileManager.metadata = s.db.fileManager.metadata)
      (hactive : db.fileManager.activeFileId = s.db.fileManager.activeFileId)
      (hold : (s.threads t).called = none) (hnew : th.called = none ∧ th.landing = none)
      (hscans : ∀ queue c, th = .compact queue c → c.Scans db s.Pending L buffer)
      (hsealed : ∀ queue c id, th = .compact queue c → Session.Passing id c →
        id < s.db.fileManager.activeFileId) :
      Turn opt s L a
        { db
          threads := Function.update s.threads t th
          buffers := Function.update s.buffers t buffer
          scheduled } L
  | kept {a : Action} {db : DBImpl} {scheduled : List ℕ} (ha : a.Background) (hsound : db.Sound L)
      (hfind : db.find = s.db.find)
      (hmetadata : db.fileManager.metadata = s.db.fileManager.metadata)
      (hactive : db.fileManager.activeFileId = s.db.fileManager.activeFileId) :
      Turn opt s L a { s with db, scheduled } L

/-- The database keeps its name. -/
theorem Turn.name (h : Turn opt s L a s' L') :
    s'.db.fileManager.metadata.name = s.db.fileManager.metadata.name := by
  cases h with
  | refused | called => rfl
  | appended | copied => exact FileManager.appended_name
  | indexed => rw [setThread_db, DBImpl.updateIndex_fileManager]
  | installed => rw [setThread_db, DBImpl.compactInstall_fileManager]
  | removed =>
    rw [setThread_db, DBImpl.compactFinish, FileManager.removeFile_eq]
    exact MetadataManager.deleteFile_name
  | moved _ _ _ hmetadata => rw [hmetadata]
  | kept _ _ _ hmetadata => rw [hmetadata]

/-- What holds all along an orderly run. -/
structure Tidy (opt : Options) (s : Concurrent) (L : Log) : Prop where
  inv : Inv opt s L
  sound : s.db.Sound L
  scans : ∀ t queue c, s.threads t = .compact queue c → c.Scans s.db s.Pending L (s.buffers t)
  sealed : ∀ t queue c id, s.threads t = .compact queue c → Session.Passing id c →
    id < s.db.fileManager.activeFileId
  landed : ∀ t loc, (s.threads t).landing = some loc →
    loc.id ∈ s.db.fileManager.metadata.files
  apart : ∀ t u loc, (s.threads t).landing = some loc → (s.threads u).landing = some loc → t = u
  room : ∀ id, totalSize (L id) < kMaxFileBytes

/-- A thread moves, and its buffer is as before. -/
theorem Turn.ofSetThread {db : DBImpl} {t : ℕ} {th : Thread} {scheduled : List ℕ}
    (ha : a.Background) (hsound : db.Sound L) (hfind : db.find = s.db.find)
    (hmetadata : db.fileManager.metadata = s.db.fileManager.metadata)
    (hactive : db.fileManager.activeFileId = s.db.fileManager.activeFileId)
    (hold : (s.threads t).called = none) (hnew : th.called = none ∧ th.landing = none)
    (hscans : ∀ queue c, th = .compact queue c → c.Scans db s.Pending L (s.buffers t))
    (hsealed : ∀ queue c id, th = .compact queue c → Session.Passing id c →
      id < s.db.fileManager.activeFileId) :
    Turn opt s L a
      { db, threads := Function.update s.threads t th, buffers := s.buffers, scheduled } L := by
  have hturn : Turn opt s L a
      { db
        threads := Function.update s.threads t th
        buffers := Function.update s.buffers t (s.buffers t)
        scheduled } L :=
    .moved ha hsound hfind hmetadata hactive hold hnew hscans hsealed
  rwa [Function.update_eq_self] at hturn

/-- A thread moves to where no file is open. -/
theorem Turn.ofIdle {db : DBImpl} {t : ℕ} {th : Thread} {scheduled : List ℕ}
    (ha : a.Background) (hsound : db.Sound L) (hfind : db.find = s.db.find)
    (hmetadata : db.fileManager.metadata = s.db.fileManager.metadata)
    (hactive : db.fileManager.activeFileId = s.db.fileManager.activeFileId)
    (hold : (s.threads t).called = none) (hnew : th.called = none ∧ th.landing = none)
    (hidle : ∀ queue c, th = .compact queue c → c = .idle ∨ ∃ id, c = .start id) :
    Turn opt s L a
      { db, threads := Function.update s.threads t th, buffers := s.buffers, scheduled } L := by
  refine .ofSetThread ha hsound hfind hmetadata hactive hold hnew (fun queue c hc => ?_)
    fun queue c id hc hpassing => ?_
  · rcases hidle queue c hc with rfl | ⟨id, rfl⟩
    · trivial
    · trivial
  · rcases hidle queue c hc with rfl | ⟨id, rfl⟩
    · exact hpassing.elim
    · exact hpassing.elim

omit [Platform] in
/-- What is published when a thread has moved. -/
theorem pending_setThread {t : ℕ} {th : Thread} {db : DBImpl} {loc : Location}
    (hp : (({ s with db } : Concurrent).setThread t th).Pending loc) :
    th.Publishes loc ∨ s.Pending loc := by
  obtain ⟨u, hu⟩ := hp
  by_cases hut : u = t
  · subst hut
    rw [setThread_self] at hu
    exact Or.inl hu
  · rw [setThread_of_ne th hut] at hu
    exact Or.inr ⟨u, hu⟩

namespace Tidy

theorem located {t : ℕ} {loc : Location} (h : Tidy opt s L)
    (hland : (s.threads t).landing = some loc) : ∃ e, Located L loc e := by
  have hcarries := h.inv.threads t
  generalize s.threads t = th at hland hcarries
  unfold Thread.landing at hland
  split at hland
  · obtain rfl := Option.some_inj.mp hland
    exact ⟨_, hcarries⟩
  · obtain rfl := Option.some_inj.mp hland
    exact ⟨_, hcarries.2⟩
  · cases hland

/-- What is published is a record that sets its key. -/
theorem pending_located {loc : Location} (h : Tidy opt s L) (hp : s.Pending loc) :
    ∃ e, Located L loc e ∧ e.type = .kSet := by
  obtain ⟨t, hpub⟩ := hp
  have hcarries := h.inv.threads t
  generalize s.threads t = th at hpub hcarries
  unfold Thread.Publishes at hpub
  split at hpub
  · obtain ⟨rfl, hvalue⟩ := hpub
    exact ⟨_, hcarries, DBImpl.entryOf_kSet.mpr hvalue⟩
  · obtain rfl := hpub
    obtain ⟨⟨offset, hreads⟩, hloc⟩ := hcarries
    exact ⟨_, hloc, hreads.kSet⟩
  · exact hpub.elim

/-- What an orderly step does. -/
theorem turn (h : Tidy opt s L) (hg : s.Orderly opt a) (hstep : step opt s a = some s') :
    ∃ L', Turn opt s L a s' L' := by
  have hsound := h.sound
  cases step_effect hstep with
  | @refused t w =>
    simp only [Concurrent.step] at hstep
    split at hstep
    · next hidle hprepare =>
      have hsame := congrArg (fun u => u.threads t) (Option.some_inj.mp hstep)
      rw [setThread_self, hidle] at hsame
      cases hsame
    · next hidle hprepare => exact ⟨L, .refused hidle hprepare⟩
    · cases hstep
  | write hidle hprepare => exact ⟨L, .called hidle hprepare⟩
  | @append t opens w loc fm ht happend =>
    have hs : (DBImpl.entryOf opt w).Storable := h.inv.carries ht
    simp only [Orderly, ht] at hg
    obtain ⟨-, rfl, rfl⟩ := hg.append hsound.holds hs happend
    exact ⟨_, .appended ht hs hg⟩
  | @appendFail t opens w status loc fm ht hne happend =>
    have hs : (DBImpl.entryOf opt w).Storable := h.inv.carries ht
    simp only [Orderly, ht] at hg
    exact absurd (hg.append hsound.holds hs happend).1 hne
  | index ht => exact ⟨L, .indexed ht⟩
  | poll =>
    exact ⟨L, .kept trivial (hsound.reindex rfl rfl hsound.max fun _ _ hd => Or.inl hd) rfl rfl rfl⟩
  | start ht hi =>
    exact ⟨L, .ofIdle trivial hsound rfl rfl rfl (by rw [ht]; rfl) ⟨rfl, rfl⟩ (by simp)⟩
  | compact ht =>
    have hsound' : s.db.pollCompactTask.2.Sound L :=
      hsound.reindex rfl rfl hsound.max fun _ _ hd => Or.inl hd
    exact ⟨L, .ofIdle trivial hsound' rfl rfl rfl (by rw [ht]; rfl) ⟨rfl, rfl⟩ (by simp)⟩
  | done ht => exact ⟨L, .ofIdle trivial hsound rfl rfl rfl (by rw [ht]; rfl) ⟨rfl, rfl⟩ (by simp)⟩
  | next ht => exact ⟨L, .ofIdle trivial hsound rfl rfl rfl (by rw [ht]; rfl) ⟨rfl, rfl⟩ (by simp)⟩
  | @opened t id opens queue fm ht hwritable hopen =>
    obtain ⟨o, ho, hreg⟩ := hsound.registered.acquireDataFile_eq id
    rw [hopen, Prod.mk.injEq] at ho
    obtain ⟨hstatus, rfl⟩ := ho
    have hid : id ∈ s.db.fileManager.metadata.files := by
      by_contra hno
      rw [if_neg hno] at hstatus
      cases hstatus
    refine ⟨L, .ofSetThread trivial (hsound.acquireDataFile hreg) rfl rfl rfl (by rw [ht]; rfl)
      ⟨rfl, rfl⟩ ?_ ?_⟩
    · rintro queue' c ⟨⟩
      exact hid
    · rintro queue' c id' ⟨⟩ hpassing
      exact hpassing.elim
  | refusedRun ht hreadonly =>
    exact ⟨L, .ofIdle trivial hsound rfl rfl rfl (by rw [ht]; rfl) ⟨rfl, rfl⟩ (by simp)⟩
  | @openFail t id opens queue status fm ht hne hopen =>
    obtain ⟨o, ho, hreg⟩ := hsound.registered.acquireDataFile_eq id
    rw [hopen, Prod.mk.injEq] at ho
    obtain ⟨-, rfl⟩ := ho
    exact ⟨L, .ofIdle trivial (hsound.acquireDataFile hreg) rfl rfl rfl (by rw [ht]; rfl)
      ⟨rfl, rfl⟩ (by simp)⟩
  | @mark t id opens queue ht =>
    have hscans := h.scans t queue _ ht
    simp only [Orderly, ht] at hg
    have hsound' : (s.db.compactMark id).Sound L :=
      hsound.reindex rfl rfl hsound.max fun _ _ hd => Or.inl hd
    refine ⟨L, .ofSetThread trivial hsound' rfl rfl rfl (by rw [ht]; rfl) ⟨rfl, rfl⟩ ?_ ?_⟩
    · rintro queue' c ⟨⟩
      exact hscans.mark
    · rintro queue' c id' ⟨⟩ rfl
      exact lt_of_le_of_ne (hsound.registered.le_active _ hscans) hg
  | @scan t id opens queue it ht =>
    have hscans := h.scans t queue _ ht
    have hsealed := h.sealed t queue _ id ht rfl
    obtain ⟨hlanding, hid⟩ := s.db.compactScan_on id it (s.buffers t)
    refine ⟨L, .moved trivial hsound rfl rfl rfl (by rw [ht]; rfl) ⟨rfl, hlanding queue⟩ ?_ ?_⟩
    · rintro queue' c ⟨⟩
      exact hscans.scan hsound fun _ => h.pending_located
    · rintro queue' c id' ⟨⟩ hpassing
      exact hid id' hpassing ▸ hsealed
  | @check t id offset opens queue it next ht =>
    have hscans := h.scans t queue _ ht
    have hsealed := h.sealed t queue _ id ht rfl
    simp only [Orderly, ht] at hg
    obtain ⟨hlanding, hid⟩ := s.db.compactCheck_on id it offset next
    refine ⟨L, .ofSetThread trivial hsound rfl rfl rfl (by rw [ht]; rfl) ⟨rfl, hlanding queue⟩
      ?_ ?_⟩
    · rintro queue' c ⟨⟩
      refine hscans.check hsound (fun _ => h.pending_located) ?_
      rintro ⟨u, hu⟩
      exact hg u hu.landing
    · rintro queue' c id' ⟨⟩ hpassing
      exact hid id' hpassing ▸ hsealed
  | @copy t id opens queue it next loc fm ht happend =>
    obtain ⟨offset, hreads⟩ := h.inv.carries ht
    have hs := hsound.storable hreads.located
    simp only [Orderly, ht] at hg
    obtain ⟨-, rfl, rfl⟩ := hg.1.append hsound.holds hs happend
    exact ⟨_, .copied ht hs hg.1⟩
  | @copyFail t id opens queue it next status loc fm ht hne happend =>
    obtain ⟨offset, hreads⟩ := h.inv.carries ht
    have hs := hsound.storable hreads.located
    simp only [Orderly, ht] at hg
    exact absurd (hg.1.append hsound.holds hs happend).1 hne
  | install ht => exact ⟨L, .installed ht⟩
  | finish ht => exact ⟨L, .removed ht⟩
  | fail ht => exact ⟨L, .ofIdle trivial hsound rfl rfl rfl (by rw [ht]; rfl) ⟨rfl, rfl⟩ (by simp)⟩
  | readonly => exact hg.elim
  | @task i fm hrun =>
    have hsound' := hsound.runTask hrun
    obtain ⟨tasks, indexFiles, rfl⟩ := FileManager.runTask_eq hrun
    exact ⟨L, .kept trivial hsound' rfl rfl rfl⟩

/-- A run that is about to remove its file has left nothing behind that is, or will be, in the
index. -/
theorem not_live_of_finish {t id : ℕ} {queue : List ℕ} {loc : Location} (h : Tidy opt s L)
    (ht : s.threads t = .compact queue (.finish id)) (hlive : s.db.Live s.Pending loc) :
    loc.id ≠ id := by
  intro hid
  obtain ⟨-, hend⟩ := h.scans t queue _ ht
  obtain ⟨e, hloc, hsize⟩ := hend loc hlive hid
  have := hloc.end_le.trans_lt (h.room loc.id)
  omega

/-- An orderly step leaves the index sound. -/
theorem sound_of_turn (h : Tidy opt s L) (hg : s.Orderly opt a) (hturn : Turn opt s L a s' L') :
    s'.db.Sound L' := by
  have hsound := h.sound
  cases hturn with
  | refused | called => exact hsound
  | appended ht hs hroom => exact hsound.appended hs hroom.1
  | @indexed t w loc ht =>
    exact hsound.updateIndex (h.inv.carries ht) (h.landed t loc (by rw [ht]; rfl))
  | copied ht hs hroom => exact hsound.appended hs hroom.1
  | @installed t id opens queue it next loc ht =>
    obtain ⟨⟨offset, hreads⟩, hloc⟩ := h.inv.carries ht
    exact hsound.compactInstall hloc hreads.kSet (h.landed t loc (by rw [ht]; rfl))
  | @removed t id opens queue ht =>
    have hid := h.sealed t queue _ id ht rfl
    refine hsound.compactFinish hid.ne (hid.trans hsound.registered.bound) fun key dir hfind => ?_
    exact h.not_live_of_finish ht (Or.inl ⟨key, dir, hfind, rfl⟩)
  | moved ha hsound' => exact hsound'
  | kept ha hsound' => exact hsound'

/-- The rest of the system goes on, and one thread moves. -/
theorem of_grows {t : ℕ} (h : Tidy opt s L) (hinv : Inv opt s' L') (hsound : s'.db.Sound L')
    (hgrows : Compaction.Grows s.db s.Pending L s'.db s'.Pending L')
    (hlive : ∀ loc, s'.db.Live s'.Pending loc →
      s.db.Live s.Pending loc ∨ s.db.fileManager.activeFileId ≤ loc.id)
    (hactive : s.db.fileManager.activeFileId ≤ s'.db.fileManager.activeFileId)
    (hothers : ∀ u, u ≠ t → s'.threads u = s.threads u ∧ s'.buffers u = s.buffers u)
    (hscans : ∀ queue c, s'.threads t = .compact queue c →
      c.Scans s'.db s'.Pending L' (s'.buffers t))
    (hsealed : ∀ queue c id, s'.threads t = .compact queue c → Session.Passing id c →
      id < s.db.fileManager.activeFileId)
    (hlanding : ∀ loc, (s'.threads t).landing = some loc →
      loc.id ∈ s'.db.fileManager.metadata.files ∧ ∀ u, u ≠ t → (s.threads u).landing ≠ some loc)
    (hroom : ∀ id, totalSize (L' id) < kMaxFileBytes) : Tidy opt s' L' where
  inv := hinv
  sound := hsound
  scans := by
    intro u queue c hu
    by_cases hut : u = t
    · subst hut
      exact hscans queue c hu
    · obtain ⟨hsame, hbuffer⟩ := hothers u hut
      rw [hsame] at hu
      rw [hbuffer]
      refine (h.scans u queue c hu).mono hgrows ?_
      -- A file that is about to be removed is sealed, and new records go to other ones.
      rintro id rfl loc hloc hid
      refine (hlive loc hloc).resolve_right (Nat.not_le_of_lt ?_)
      exact hid ▸ h.sealed u queue _ id hu rfl
  sealed := by
    intro u queue c id hu hpassing
    by_cases hut : u = t
    · subst hut
      exact (hsealed queue c id hu hpassing).trans_le hactive
    · rw [(hothers u hut).1] at hu
      exact (h.sealed u queue c id hu hpassing).trans_le hactive
  landed := by
    intro u loc hland
    by_cases hut : u = t
    · subst hut
      exact (hlanding loc hland).1
    · rw [(hothers u hut).1] at hland
      exact hgrows.files (h.landed u loc hland)
  apart := by
    intro u v loc hu hv
    by_cases hut : u = t
    · subst hut
      by_contra hne
      rw [(hothers v (Ne.symm hne)).1] at hv
      exact (hlanding loc hu).2 v (Ne.symm hne) hv
    · rw [(hothers u hut).1] at hu
      by_cases hvt : v = t
      · subst hvt
        exact absurd hu ((hlanding loc hv).2 u hut)
      · rw [(hothers v hvt).1] at hv
        exact h.apart u v loc hu hv
  room := hroom

/-- A record is appended, and the index update of it is in flight. -/
theorem extend {t : ℕ} {opens : OpenData} {e : Entry} {th : Thread} (h : Tidy opt s L)
    (hs' : s' = { s with
      db := { s.db with fileManager := s.db.fileManager.appended e } }.setThread t th)
    (hinv : Inv opt s' (L.add (s.db.fileManager.nextLoc e).id e)) (hs : e.Storable)
    (hroom : s.db.fileManager.HasRoom opens e)
    (hnew : th.landing = some (s.db.fileManager.nextLoc e))
    (hscans : ∀ queue c, th = .compact queue c → ∀ pend : Location → Prop,
      (∀ loc, pend loc → s.Pending loc ∨ loc = s.db.fileManager.nextLoc e) →
        c.Scans { s.db with fileManager := s.db.fileManager.appended e } pend
          (L.add (s.db.fileManager.nextLoc e).id e) (s.buffers t))
    (hsealed : ∀ queue c id, th = .compact queue c → Session.Passing id c →
      id < s.db.fileManager.activeFileId) :
    Tidy opt s' (L.add (s.db.fileManager.nextLoc e).id e) := by
  have hsound := h.sound.appended hs hroom.1
  have hpending : ∀ loc, s'.Pending loc → s.Pending loc ∨ loc = s.db.fileManager.nextLoc e := by
    intro loc hp
    subst hs'
    exact (pending_setThread hp).symm.imp_right fun hpub =>
      (Option.some_inj.mp (hnew.symm.trans hpub.landing)).symm
  have hend : totalSize (L (s.db.fileManager.nextLoc e).id) ≤ (s.db.fileManager.nextLoc e).offset :=
    (congrArg Location.offset h.sound.holds.nextLoc_eq).ge
  have hlive : ∀ loc, s'.db.Live s'.Pending loc →
      s.db.Live s.Pending loc ∨ loc = s.db.fileManager.nextLoc e := by
    rintro loc (hindex | hp)
    · subst hs'
      exact Or.inl (Or.inl hindex)
    · exact (hpending loc hp).imp_left Or.inr
  have hself : s'.threads t = th := by
    rw [hs', setThread_self]
  refine h.of_grows (t := t) hinv (by rw [hs']; exact hsound) ⟨Log.add_grows, ?_, ?_, ?_⟩ ?_ ?_ ?_
    ?_ ?_ ?_ (h.sound.holds.room_add h.room hroom.2.2 hs)
  · intro loc hl
    refine (hlive loc hl).imp_right ?_
    rintro rfl
    exact hend
  · intro loc hp
    refine (hpending loc hp).imp_right ?_
    rintro rfl
    exact hend
  · rw [hs']
    exact FileManager.files_subset_appended
  · intro loc hl
    refine (hlive loc hl).imp_right ?_
    rintro rfl
    rw [FileManager.nextLoc_id]
    exact FileManager.activeFileId_le_appended
  · rw [hs']
    exact FileManager.activeFileId_le_appended
  · intro u hu
    rw [hs']
    exact ⟨setThread_of_ne th hu, rfl⟩
  · intro queue c hc
    have hscans' := hscans queue c (hself.symm.trans hc) _ hpending
    subst hs'
    exact hscans'
  · intro queue c id hc
    exact hsealed queue c id (hself.symm.trans hc)
  · intro loc hland
    rw [hself, hnew, Option.some_inj] at hland
    subst hland
    refine ⟨by rw [hs']; exact hsound.registered.nextLoc_mem, fun u _ hu => ?_⟩
    -- The records in flight are in front of the new one.
    obtain ⟨x, hx⟩ := h.located hu
    have hlt := h.sound.holds.lt_nextLoc h.sound.registered (h.landed u _ hu) hx (e := e)
    exact Location.lt_irrefl _ hlt

/-- A thread goes on that has nothing in flight any more. What the index leads to now, it led to
before or was in flight. -/
theorem settle {t : ℕ} {th : Thread} {buffer : ReadBuffer} {db : DBImpl} {scheduled : List ℕ}
    (h : Tidy opt s L)
    (hs' : s' =
      { db
        threads := Function.update s.threads t th
        buffers := Function.update s.buffers t buffer
        scheduled })
    (hinv : Inv opt s' L) (hsound : db.Sound L)
    (hmetadata : db.fileManager.metadata = s.db.fileManager.metadata)
    (hactive : db.fileManager.activeFileId = s.db.fileManager.activeFileId)
    (hfind : ∀ key dir, db.find key = some dir → s.db.find key = some dir ∨ s.Pending dir.loc)
    (hnew : th.landing = none)
    (hscans : ∀ queue c, th = .compact queue c → c.Scans db s.Pending L buffer)
    (hsealed : ∀ queue c id, th = .compact queue c → Session.Passing id c →
      id < s.db.fileManager.activeFileId) : Tidy opt s' L := by
  have hself : s'.threads t = th := by
    rw [hs']
    exact Function.update_self ..
  have hothers : ∀ u, u ≠ t → s'.threads u = s.threads u ∧ s'.buffers u = s.buffers u := by
    intro u hu
    rw [hs']
    exact ⟨Function.update_of_ne hu .., Function.update_of_ne hu ..⟩
  have hpending : ∀ loc, s'.Pending loc → s.Pending loc := by
    rintro loc ⟨u, hu⟩
    by_cases hut : u = t
    · subst hut
      rw [hself] at hu
      cases hnew.symm.trans hu.landing
    · rw [(hothers u hut).1] at hu
      exact ⟨u, hu⟩
  have hlive : ∀ loc, s'.db.Live s'.Pending loc → s.db.Live s.Pending loc := by
    rintro loc (⟨key, dir, hdir, rfl⟩ | hp)
    · rw [hs'] at hdir
      exact (hfind key dir hdir).imp_left fun hold => ⟨key, dir, hold, rfl⟩
    · exact Or.inr (hpending loc hp)
  have hrecords : ∀ id, ∃ xs, L id = L id ++ xs := fun id => ⟨[], (List.append_nil _).symm⟩
  refine h.of_grows (t := t) hinv (by rw [hs']; exact hsound)
    ⟨hrecords, fun loc hl => Or.inl (hlive loc hl), fun loc hp => Or.inl (hpending loc hp), ?_⟩
    (fun loc hl => Or.inl (hlive loc hl)) ?_ hothers ?_ ?_ ?_ h.room
  · rw [hs', hmetadata]
  · rw [hs', hactive]
  · intro queue c hc
    have hbuffer : s'.buffers t = buffer := by
      rw [hs']
      exact Function.update_self ..
    have hdb : s'.db = db := by
      rw [hs']
    rw [hbuffer, hdb]
    exact (hscans queue c (hself.symm.trans hc)).of_pend fun loc hp => Or.inl (hpending loc hp)
  · intro queue c id hc
    exact hsealed queue c id (hself.symm.trans hc)
  · intro loc hland
    rw [hself, hnew] at hland
    cases hland

/-- A file is removed. -/
theorem removed {t id : ℕ} {queue : List ℕ} (h : Tidy opt s L)
    (ht : s.threads t = .compact queue (.finish id))
    (hs' : s' = { s with db := s.db.compactFinish id }.setThread t (.compact queue .idle))
    (hinv : Inv opt s' L) (hsound : s'.db.Sound L)
    (halone : ∀ u queue c, u ≠ t → s.threads u = .compact queue c → id ∉ c.files)
    (hdeletes : ∀ u w loc, s.threads u = .index w loc → w.value = [] → loc.id ≠ id) :
    Tidy opt s' L := by
  have hself : s'.threads t = .compact queue .idle := by
    rw [hs', setThread_self]
  have hothers : ∀ u, u ≠ t → s'.threads u = s.threads u := by
    intro u hu
    rw [hs']
    exact setThread_of_ne _ hu
  have hpending : ∀ loc, s'.Pending loc → s.Pending loc := by
    intro loc hp
    subst hs'
    exact (pending_setThread hp).resolve_left fun hpub => by cases hpub.landing
  have hlanding : ∀ u loc, (s'.threads u).landing = some loc →
      (s.threads u).landing = some loc := by
    intro u loc hland
    by_cases hut : u = t
    · subst hut
      rw [hself] at hland
      cases hland
    · rwa [hothers u hut] at hland
  -- What is in flight is in other files.
  have hne : ∀ u loc, (s.threads u).landing = some loc → loc.id ≠ id := by
    intro u loc hland
    rcases Thread.publishes_or_deletes hland with hpub | ⟨w, hu, hvalue⟩
    · exact h.not_live_of_finish ht (Or.inr ⟨u, hpub⟩)
    · exact hdeletes u w loc hu hvalue
  refine ⟨hinv, hsound, fun u queue' c hu => ?_, fun u queue' c id' hu hpassing => ?_,
    fun u loc hland => ?_, fun u v loc hu hv => ?_, h.room⟩
  · by_cases hut : u = t
    · subst hut
      obtain ⟨rfl, rfl⟩ := Thread.compact.inj (hself.symm.trans hu)
      trivial
    · rw [hothers u hut] at hu
      rw [show s'.buffers = s.buffers by rw [hs']; rfl, hs']
      refine ((h.scans u queue' c hu).compactFinish (halone u queue' c hut hu) ?_).of_pend
        fun loc hp => Or.inl (hpending loc (hs' ▸ hp))
      rintro i it next loc rfl
      exact hne u loc (by rw [hu]; rfl)
  · rw [hs', setThread_db, DBImpl.compactFinish, FileManager.removeFile_activeFileId]
    by_cases hut : u = t
    · subst hut
      obtain ⟨rfl, rfl⟩ := Thread.compact.inj (hself.symm.trans hu)
      exact hpassing.elim
    · exact h.sealed u queue' c id' (hothers u hut ▸ hu) hpassing
  · rw [hs', setThread_db, DBImpl.compactFinish, FileManager.removeFile_files, Finset.mem_erase]
    exact ⟨hne u loc (hlanding u loc hland), h.landed u loc (hlanding u loc hland)⟩
  · exact h.apart u v loc (hlanding u loc hu) (hlanding v loc hv)

/-- One orderly step. -/
theorem step (h : Tidy opt s L) (hg : s.Orderly opt a)
    (hstep : Concurrent.step opt s a = some s') : ∃ L', Turn opt s L a s' L' ∧ Tidy opt s' L' := by
  obtain ⟨L', hturn⟩ := h.turn hg hstep
  have hsound := h.sound_of_turn hg hturn
  have hinv : Inv opt s' L' := by
    obtain ⟨L'', hchange⟩ := h.inv.change hg.within hstep
    have hinv := h.inv.step hchange
    -- The records are those that are in the data files.
    exact (hinv.stores.log_eq.symm.trans hsound.holds.stores.log_eq) ▸ hinv
  refine ⟨L', hturn, ?_⟩
  cases hturn with
  | refused => exact h
  | @called t w e ht hprepare =>
    exact h.settle (setThread_buffers t _ s.db).symm hinv hsound rfl rfl (fun _ _ => Or.inl) rfl
      (fun _ _ hc => by cases hc) fun _ _ _ hc => by cases hc
  | appended ht hs hroom =>
    exact h.extend rfl hinv hs hroom rfl (fun _ _ hc => by cases hc) fun _ _ _ hc => by cases hc
  | @indexed t w loc ht =>
    refine h.settle (setThread_buffers t .idle _).symm hinv hsound ?_ ?_ (fun key dir hfind => ?_)
      rfl (fun _ _ hc => by cases hc) fun _ _ _ hc => by cases hc
    · rw [DBImpl.updateIndex_fileManager]
    · rw [DBImpl.updateIndex_fileManager]
    · rw [DBImpl.find_updateIndex] at hfind
      split_ifs at hfind with hkey hvalue
      · obtain rfl := Option.some_inj.mp hfind
        exact Or.inr ⟨t, by rw [ht]; exact ⟨rfl, hvalue⟩⟩
      · exact Or.inl hfind
  | @copied t id opens queue it next ht hs hroom =>
    have hscans := h.scans t queue _ ht
    refine h.extend rfl hinv hs hroom rfl (fun queue' c hc => ?_) fun queue' c id' hc hpassing => ?_
    · obtain ⟨rfl, rfl⟩ := Thread.compact.inj hc
      -- The copy goes behind all records.
      intro pend hpend
      have hscans' : (Compaction.append id it next).Scans s.db pend L (s.buffers t) := by
        refine hscans.of_pend fun l hl => (hpend l hl).imp_right ?_
        rintro rfl
        exact ⟨(congrArg Location.offset h.sound.holds.nextLoc_eq).ge, fun id' hc' => by cases hc'⟩
      exact (hscans'.append h.sound hroom.1).2.1
    · obtain ⟨rfl, rfl⟩ := Thread.compact.inj hc
      exact h.sealed t queue _ id' ht hpassing
  | @installed t id opens queue it next loc ht =>
    have hscans := h.scans t queue _ ht
    refine h.settle (setThread_buffers t _ _).symm hinv hsound ?_ ?_ (fun key dir hfind => ?_)
      rfl (fun queue' c hc => ?_) fun queue' c id' hc hpassing => ?_
    · rw [DBImpl.compactInstall_fileManager]
    · rw [DBImpl.compactInstall_fileManager]
    · rw [DBImpl.find_compactInstall] at hfind
      split_ifs at hfind
      · obtain rfl := Option.some_inj.mp hfind
        exact Or.inr ⟨t, by rw [ht]; rfl⟩
      · exact Or.inl hfind
    · obtain ⟨rfl, rfl⟩ := Thread.compact.inj hc
      exact hscans.install h.sound fun _ => h.pending_located
    · obtain ⟨rfl, rfl⟩ := Thread.compact.inj hc
      exact h.sealed t queue _ id' ht hpassing
  | @removed t id opens queue ht =>
    simp only [Orderly, ht] at hg
    exact h.removed ht rfl hinv hsound hg.1 hg.2.1
  | moved ha hsound' hfind hmetadata hactive hold hnew hscans hsealed =>
    exact h.settle rfl hinv hsound hmetadata hactive
      (fun key dir hdir => Or.inl (hfind ▸ hdir)) hnew.2 hscans hsealed
  | @kept a db scheduled ha hsound' hfind hmetadata hactive =>
    refine ⟨hinv, hsound, fun u queue c hu => ?_, fun u queue c id hu hpassing => ?_,
      fun u loc hland => ?_, h.apart, h.room⟩
    · have hlive : ∀ loc, db.Live s.Pending loc → s.db.Live s.Pending loc := by
        intro loc hl
        rwa [DBImpl.Live, hfind] at hl
      refine (h.scans u queue c hu).mono ⟨fun id => ⟨[], (List.append_nil _).symm⟩,
        fun loc hl => Or.inl (hlive loc hl), fun loc hp => Or.inl hp, ?_⟩ fun id _ loc hl _ =>
          hlive loc hl
      rw [hmetadata]
    · dsimp only
      rw [hactive]
      exact h.sealed u queue c id hu hpassing
    · dsimp only
      rw [hmetadata]
      exact h.landed u loc hland

/-- A database that is not in use. -/
theorem start {db : DBImpl} (h : db.Sound L) (hwritten : L.Written opt)
    (hroom : ∀ id, totalSize (L id) < kMaxFileBytes) : Tidy opt (Concurrent.start db) L where
  inv := Inv.start h hwritten
  sound := h
  scans := fun _ _ _ ht => by cases ht
  sealed := fun _ _ _ _ ht => by cases ht
  landed := fun _ _ hland => by cases hland
  apart := fun _ _ _ hland => by cases hland
  room := hroom

end Tidy

end Concurrent
end PedroDB
