import PedroDB.Orderly
import PedroDB.Theorems.Crashes

/-!
# Crashes while threads write and compact

Any number of threads write and compact, and the process dies at any time. What the callers are
told, before a crash and after it, is what they would be told by one map that each write changes
at one moment between its call and its return. A write that a crash cuts off is done or not.

## Main definitions

* `AtomicMap`, `AtomicMap.Spec` — a map that threads write
* `Concurrent.Fate`, `Concurrent.system` — the database with its threads, and the death of its
  process
* `Concurrent.Ranked` — what the index and the records in flight leave to the recovery
* `Concurrent.Shows` — a database shows a map

## Main results

* `Concurrent.Ranked.turn` — one step
* `Concurrent.refines` — each step of the database is one of the map
* `Concurrent.allows_replies` — all replies of a run
-/

namespace PedroDB

open Transition LastWriter

/-- A map, and the writes that its threads were called for. -/
structure AtomicMap where
  map : KeyMap
  calls : ℕ → Option Write

/-- A step of a thread, or the death of the process. -/
inductive Concurrent.Fate
  | act (a : Concurrent.Action)
  | crash

/-- What may happen to the map. A write takes effect at one moment, and a crash leaves of each key
what it was, or what a write that was cut off makes of it. -/
inductive AtomicMap.Spec [Platform] (opt : Options) :
    Transition.Spec AtomicMap Concurrent.Fate Status
  | refuse {m : AtomicMap} {t : ℕ} {w : Write} (hcall : m.calls t = none)
      (hbig : kMaxFileBytes < (DBImpl.entryOf opt w).sizeOf) :
      Spec opt m (.act (.write t w)) (some .kNotSupported) m
  | call {m : AtomicMap} {t : ℕ} {w : Write} (hcall : m.calls t = none)
      (hsize : (DBImpl.entryOf opt w).sizeOf ≤ kMaxFileBytes) :
      Spec opt m (.act (.write t w)) none { m with calls := Function.update m.calls t (some w) }
  | effect {m : AtomicMap} {t : ℕ} {w : Write} (hcall : m.calls t = some w) :
      Spec opt m (.act (.index t)) (some (m.map.put w.key w.value).1)
        { map := (m.map.put w.key w.value).2, calls := Function.update m.calls t none }
  | silent {m : AtomicMap} {a : Concurrent.Action} (hwrite : ∀ t w, a ≠ .write t w)
      (hindex : ∀ t, a ≠ .index t) : Spec opt m (.act a) none m
  | crash {m m' : AtomicMap} (hcalls : ∀ t, m'.calls t = none)
      (hmap : ∀ key, m'.map key = m.map key ∨ ∃ t w, m.calls t = some w ∧ w.key = key ∧
        m'.map key = (m.map.put w.key w.value).2 key) : Spec opt m .crash none m'

namespace Concurrent

section

variable [Platform] (opt : Options) (name : Bytes)

/-- A crash leaves the files, and another process opens them. -/
def fateStep (s : Concurrent) : Fate → Option Concurrent
  | .act a => step opt s a
  | .crash => (DBImpl.openDb opt .sound name s.db.fileManager.disk ReadBuffer.empty).map
      fun (_, db, _) => start db

/-- The status that a write returns with. -/
def reply (s : Concurrent) : Fate → Option Status
  | .act (.write _ w) =>
    match DBImpl.prepare opt w s.db with
    | .error status => some status
    | .ok _ => none
  | .act (.append t opens) =>
    match s.threads t with
    | .append w =>
      match s.db.fileManager.append opens (DBImpl.entryOf opt w) with
      | none | some (.kOk, _, _) => none
      | some (status, _, _) => some status
    | _ => none
  | .act (.index t) =>
    match s.threads t with
    | .index w loc => some (DBImpl.updateIndex opt w loc s.db).1
    | _ => none
  | _ => none

/-- The database and its threads, as their callers see them. -/
def system : System Concurrent Fate Status where
  step := fateStep opt name
  reply := reply opt

end

section

variable [Platform] {opt : Options} {name : Bytes} {s s' : Concurrent} {a : Action} {L L' : Log}

theorem reply_of_background (ha : a.Background) : s.reply opt (.act a) = none := by
  cases a with
  | write | append | index => exact ha.elim
  | _ => rfl

/-- Behind the record that the index leads to there are only its copy and records in flight, and
behind each record of an absent key there is a tombstone, unless it is in flight. -/
structure Ranked (s : Concurrent) : Prop where
  newest : ∀ key dir, s.db.find key = some dir → ∀ r ∈ s.db.fileManager.recorded,
    r.2.key = key → dir.loc < r.1 → s.db.recordOf key = some r.2 ∨ s.Waits key r.1
  dead : ∀ r ∈ s.db.fileManager.recorded, r.2.type = .kSet → s.db.find r.2.key = none →
    s.Waits r.2.key r.1 ∨ ∃ r' ∈ s.db.fileManager.recorded, r'.2.key = r.2.key ∧
      r'.2.type = .kDelete ∧ r.1 < r'.1

omit [Platform] in
/-- A write waits on when another thread moves. -/
theorem Waits.setThread {t : ℕ} {th : Thread} {db : DBImpl} {key : Key} {loc : Location}
    (h : s.Waits key loc) (hold : ∀ w loc, s.threads t ≠ .index w loc) :
    (({ s with db } : Concurrent).setThread t th).Waits key loc :=
  (waits_setThread hold).mpr (Or.inl h)

namespace Ranked

/-- The index is as before, and each new record is in flight, or repeats the one that the index
leads to. -/
theorem of_same (h : s.Ranked) (hfind : s'.db.find = s.db.find)
    (hrecordOf : ∀ key, s'.db.recordOf key = s.db.recordOf key)
    (hwaits : ∀ key loc, s.Waits key loc → s'.Waits key loc)
    (hold : s.db.fileManager.recorded ⊆ s'.db.fileManager.recorded)
    (hnew : ∀ r ∈ s'.db.fileManager.recorded, r ∈ s.db.fileManager.recorded ∨
      s'.Waits r.2.key r.1 ∨ s.db.recordOf r.2.key = some r.2) : s'.Ranked where
  newest := by
    rintro key dir hdir r hr rfl hlt
    rw [hfind] at hdir
    rw [hrecordOf]
    rcases hnew r hr with hr | hwait | hsame
    · exact (h.newest _ dir hdir r hr rfl hlt).imp_right (hwaits _ _)
    · exact Or.inr hwait
    · exact Or.inl hsame
  dead := by
    intro r hr htype hnone
    rw [hfind] at hnone
    rcases hnew r hr with hr | hwait | hsame
    · refine (h.dead r hr htype hnone).imp (hwaits _ _) ?_
      rintro ⟨r', hr', hrest⟩
      exact ⟨r', hold hr', hrest⟩
    · exact Or.inl hwait
    · rw [DBImpl.recordOf_of_none hnone] at hsame
      cases hsame

/-- The location of a copy that is to be installed is that of no write. -/
theorem not_waits_of_install {t id : ℕ} {queue : List ℕ} {it : RecordIterator} {next : Entry}
    {loc : Location} {key : Key} (h : Tidy opt s L)
    (ht : s.threads t = .compact queue (.install id it next loc)) : ¬ s.Waits key loc := by
  rintro ⟨u, w, hu, -⟩
  obtain rfl := h.apart t u loc (by rw [ht]; rfl) (by rw [hu]; rfl)
  rw [ht] at hu
  cases hu

/-- An orderly step changes the record of a key only by an index update of a write. -/
theorem recordOf_turn (hranked : s.Ranked) (h : Tidy opt s L) (h' : Tidy opt s' L')
    (hturn : Turn opt s L a s' L') (hindex : ∀ t, a ≠ .index t) (key : Key) :
    s'.db.recordOf key = s.db.recordOf key := by
  have hsound := h.sound
  cases hturn with
  | refused | called => rfl
  | appended => exact hsound.recordOf_eq_of_find h'.sound rfl (fun _ _ hx => hx.add _ _) key
  | indexed => exact absurd rfl (hindex _)
  | copied => exact hsound.recordOf_eq_of_find h'.sound rfl (fun _ _ hx => hx.add _ _) key
  | @installed t id opens queue it next loc ht =>
    refine hsound.recordOf_congr h'.sound (fun hnone => ?_) fun dir e hfind hloc hkey => ?_
    · rw [setThread_db, DBImpl.find_compactInstall, if_neg]
      · exact hnone
      · rintro ⟨-, dir, hdir, -⟩
        rw [hnone] at hdir
        cases hdir
    · rw [setThread_db, DBImpl.find_compactInstall]
      split_ifs with hcond
      · -- The index moves to the copy.
        obtain ⟨hnext, dir', hdir', hlt⟩ := hcond
        obtain rfl := Option.some_inj.mp (hfind.symm.trans hdir')
        obtain ⟨-, hcopy⟩ := h.inv.carries ht
        have hmem : (loc, next) ∈ s.db.fileManager.recorded :=
          hsound.mem_recorded.mpr ⟨h.landed t loc (by rw [ht]; rfl), hcopy⟩
        have hsame := (hranked.newest key dir hfind _ hmem hnext.symm hlt).resolve_right
          (not_waits_of_install h ht)
        rw [hsound.recordOf_eq hfind hloc, Option.some_inj] at hsame
        exact ⟨_, rfl, hsame ▸ hcopy⟩
      · exact ⟨dir, hfind, hloc⟩
  | removed => exact hsound.recordOf_eq_of_find h'.sound rfl (fun _ _ hx => hx) key
  | moved _ _ hfind => exact hsound.recordOf_eq_of_find h'.sound hfind (fun _ _ hx => hx) key
  | kept _ _ hfind => exact hsound.recordOf_eq_of_find h'.sound hfind (fun _ _ hx => hx) key

/-- The records are where they were, in the same files. -/
theorem recorded_eq (h : s.db.Sound L) (h' : s'.db.Sound L)
    (hmetadata : s'.db.fileManager.metadata = s.db.fileManager.metadata) :
    s'.db.fileManager.recorded = s.db.fileManager.recorded := by
  ext r
  rw [h.mem_recorded, h'.mem_recorded, hmetadata]

/-- A write updates the index. -/
theorem indexed {t : ℕ} {w : Write} {loc : Location} (hranked : s.Ranked) (h : Tidy opt s L)
    (ht : s.threads t = .index w loc) (hprevails : s.Prevails (DBImpl.entryOf opt w) loc) :
    (({ s with db := (DBImpl.updateIndex opt w loc s.db).2 } : Concurrent).setThread t
      .idle).Ranked := by
  have hloc : Located L loc (DBImpl.entryOf opt w) := h.inv.carries ht
  have hfile := h.landed t loc (by rw [ht]; rfl)
  have hrecordOf := h.sound.recordOf_updateIndex hloc hfile
  constructor
  · intro key dir hdir r hr hkey hlt
    rw [setThread_db] at hdir hr ⊢
    rw [DBImpl.find_updateIndex] at hdir
    rw [DBImpl.updateIndex_fileManager] at hr
    rw [hrecordOf]
    split_ifs at hdir ⊢ with hkey' hvalue
    · -- What stands behind the record of this write repeats it, or is in flight.
      obtain rfl := Option.some_inj.mp hdir
      refine (hprevails r hr (hkey.trans hkey') hlt).imp (fun he => by rw [he]) fun hwait => ?_
      rw [hkey']
      exact (waits_indexed ht (Or.inr (ne_of_gt hlt))).mpr hwait
    · exact (hranked.newest key dir hdir r hr hkey hlt).imp_right
        (waits_indexed ht (Or.inl hkey')).mpr
  · intro r hr htype hnone
    rw [setThread_db] at hnone hr ⊢
    rw [DBImpl.find_updateIndex] at hnone
    rw [DBImpl.updateIndex_fileManager] at hr ⊢
    split_ifs at hnone with hkey hvalue
    · have hdelete : (DBImpl.entryOf opt w).type = .kDelete := by
        rw [DBImpl.entryOf_type, if_pos hvalue]
      rcases lt_trichotomy r.1 loc with hlt | heq | hgt
      · -- The key was deleted just now.
        exact Or.inr ⟨(loc, DBImpl.entryOf opt w), h.sound.mem_recorded.mpr ⟨hfile, hloc⟩,
          hkey.symm, hdelete, hlt⟩
      · have hentry : r.2 = DBImpl.entryOf opt w :=
          (h.sound.mem_recorded.mp hr).2.unique (heq ▸ hloc)
        rw [hentry, hdelete] at htype
        cases htype
      · rcases hprevails r hr hkey hgt with hentry | hwait
        · rw [hentry, hdelete] at htype
          cases htype
        · left
          rw [hkey]
          exact (waits_indexed ht (Or.inr (ne_of_gt hgt))).mpr hwait
    · exact (hranked.dead r hr htype hnone).imp_left (waits_indexed ht (Or.inl hkey)).mpr

/-- A copy is installed. -/
theorem installed {t id : ℕ} {queue : List ℕ} {it : RecordIterator} {next : Entry}
    {loc : Location} (hranked : s.Ranked)
    (ht : s.threads t = .compact queue (.install id it next loc))
    (hrecordOf : ∀ key, (s.db.compactInstall next loc).recordOf key = s.db.recordOf key) :
    (({ s with db := s.db.compactInstall next loc } : Concurrent).setThread t
      (.compact queue (.scan id it))).Ranked := by
  have hold : ∀ w loc, s.threads t ≠ .index w loc := by simp [ht]
  constructor
  · intro key dir hdir r hr hkey hlt
    rw [setThread_db, hrecordOf]
    rw [setThread_db, DBImpl.compactInstall_fileManager] at hr
    rw [setThread_db, DBImpl.find_compactInstall] at hdir
    split_ifs at hdir with hcond
    · -- The copy stands behind the record that the index led to.
      obtain ⟨-, old, hfind, hlt'⟩ := hcond
      obtain rfl := Option.some_inj.mp hdir
      exact (hranked.newest key old hfind r hr hkey (hlt'.trans hlt)).imp_right
        fun hwait => hwait.setThread hold
    · exact (hranked.newest key dir hdir r hr hkey hlt).imp_right
        fun hwait => hwait.setThread hold
  · intro r hr htype hnone
    rw [setThread_db, DBImpl.compactInstall_fileManager] at hr ⊢
    rw [setThread_db, DBImpl.find_compactInstall] at hnone
    split_ifs at hnone
    exact (hranked.dead r hr htype hnone).imp_left fun hwait => hwait.setThread hold

/-- A file is removed that releases its tombstones. -/
theorem removed {t id : ℕ} {queue : List ℕ} (hranked : s.Ranked) (h : s.db.Sound L)
    (h' : (s.db.compactFinish id).Sound L) (ht : s.threads t = .compact queue (.finish id))
    (hreleases : s.Releases id)
    (hrecordOf : ∀ key, (s.db.compactFinish id).recordOf key = s.db.recordOf key) :
    (({ s with db := s.db.compactFinish id } : Concurrent).setThread t
      (.compact queue .idle)).Ranked := by
  have hold : ∀ w loc, s.threads t ≠ .index w loc := by simp [ht]
  have hrecorded : ∀ r, r ∈ (s.db.compactFinish id).fileManager.recorded ↔
      r ∈ s.db.fileManager.recorded ∧ r.1.id ≠ id := by
    intro r
    have hfiles : (s.db.compactFinish id).fileManager.metadata.files =
        s.db.fileManager.metadata.files.erase id := FileManager.removeFile_files
    rw [h'.mem_recorded, hfiles, Finset.mem_erase, h.mem_recorded]
    tauto
  constructor
  · intro key dir hdir r hr hkey hlt
    rw [setThread_db, hrecordOf]
    exact (hranked.newest key dir hdir r ((hrecorded r).mp hr).1 hkey hlt).imp_right
      fun hwait => hwait.setThread hold
  · intro r hr htype hnone
    obtain ⟨hr, hne⟩ := (hrecorded r).mp hr
    refine (hreleases r hr hne htype hnone).imp (fun hwait => hwait.setThread hold) ?_
    rintro ⟨r', hr', hne', hrest⟩
    exact ⟨r', (hrecorded r').mpr ⟨hr', hne'⟩, hrest⟩

/-- One step. -/
theorem turn (hranked : s.Ranked) (h : Tidy opt s L) (h' : Tidy opt s' L')
    (hg : s.Orderly opt a) (hturn : Turn opt s L a s' L') : s'.Ranked := by
  have hsound := h.sound
  have hrecordOf := recordOf_turn hranked h h' hturn
  cases hturn with
  | refused => exact hranked
  | called ht =>
    exact hranked.of_same rfl (fun _ => rfl) (fun _ _ hwait => hwait.setThread (by simp [ht]))
      subset_rfl fun r hr => Or.inl hr
  | @appended t opens w ht hs hroom =>
    have hrecorded := hsound.recorded_appended hs hroom.1
    refine hranked.of_same rfl (hrecordOf (by simp))
      (fun _ _ hwait => hwait.setThread (by simp [ht]))
      ((Set.subset_insert _ _).trans hrecorded.ge) fun r hr => ?_
    rcases hrecorded.le hr with rfl | hr
    · exact Or.inr (Or.inl ⟨t, w, setThread_self .., rfl⟩)
    · exact Or.inl hr
  | indexed ht =>
    simp only [Orderly, ht] at hg
    exact hranked.indexed h ht hg
  | @copied t id opens queue it next ht hs hroom =>
    have hrecorded := hsound.recorded_appended hs hroom.1
    simp only [Orderly, ht] at hg
    refine hranked.of_same rfl (hrecordOf (by simp))
      (fun _ _ hwait => hwait.setThread (by simp [ht]))
      ((Set.subset_insert _ _).trans hrecorded.ge) fun r hr => ?_
    rcases hrecorded.le hr with rfl | hr
    · exact Or.inr (Or.inr hg.2)
    · exact Or.inl hr
  | installed ht => exact hranked.installed ht (hrecordOf (by simp))
  | removed ht =>
    simp only [Orderly, ht] at hg
    exact hranked.removed hsound h'.sound ht hg.2.2 (hrecordOf (by simp))
  | @moved a t th buffer db scheduled ha hsound' hfind hmetadata hactive hold hnew =>
    have hsame : db.fileManager.recorded = s.db.fileManager.recorded :=
      recorded_eq hsound h'.sound hmetadata
    refine hranked.of_same hfind (hrecordOf ha.ne_index) (fun _ _ hwait => hwait.setThread ?_)
      hsame.ge fun r hr => Or.inl (hsame.le hr)
    intro w loc ht
    rw [ht] at hold
    cases hold
  | @kept a db scheduled ha hsound' hfind hmetadata hactive =>
    have hsame : db.fileManager.recorded = s.db.fileManager.recorded :=
      recorded_eq hsound h'.sound hmetadata
    exact hranked.of_same hfind (hrecordOf ha.ne_index) (fun _ _ hwait => hwait) hsame.ge
      fun r hr => Or.inl (hsame.le hr)

end Ranked

/-- The database shows a map to its callers: each key has what the map has, and each write that
was called and has not returned is a call on the map. -/
structure Shows (opt : Options) (name : Bytes) (s : Concurrent) (m : AtomicMap) : Prop where
  tidy : ∃ L, Tidy opt s L
  ranked : s.Ranked
  name : s.db.fileManager.metadata.name = name
  replies : ∀ key, DBImpl.replyTo opt (s.db.recordOf key) = m.map.get key
  calls : ∀ t, m.calls t = (s.threads t).called

namespace Shows

variable {m : AtomicMap}

/-- A database that is not in use. -/
theorem start {u : Session} {map : KeyMap} (h : Session.Durable opt name u L)
    (hidle : u.Quiescent) (htomb : u.db.Tombstoned)
    (hreply : ∀ key, DBImpl.replyTo opt (u.db.recordOf key) = map.get key) :
    Shows opt name (Concurrent.start u.db) { map, calls := fun _ => none } := by
  have hsound := h.inv.sound
  refine ⟨⟨L, .start hsound h.inv.written h.room⟩, ⟨?_, ?_⟩, h.name, hreply, fun _ => rfl⟩
  · intro key dir hdir r hr hkey hlt
    obtain ⟨hid, hloc⟩ := hsound.mem_recorded.mp hr
    exact absurd (h.newest.idle hidle key dir hdir r.1 r.2 hid hloc hkey) (not_le_of_gt hlt)
  · intro r hr htype hnone
    obtain ⟨loc, e, hread, hrest⟩ :=
      htomb r.1 r.2 (h.readable_iff.mpr (hsound.mem_recorded.mp hr)) htype hnone
    exact Or.inr ⟨(loc, e), hsound.mem_recorded.mpr (h.readable_iff.mp hread), hrest⟩

/-- A thread moves, and was called for the same write before. -/
theorem calls_setThread {t : ℕ} {th : Thread} {db : DBImpl} (h : Shows opt name s m)
    (hth : th.called = (s.threads t).called) (u : ℕ) :
    m.calls u = ((({ s with db } : Concurrent).setThread t th).threads u).called := by
  by_cases hut : u = t
  · subst hut
    rw [setThread_self, hth, h.calls]
  · rw [setThread_of_ne th hut, h.calls]

/-- A thread moves, and its call moves with it. -/
theorem calls_update {t : ℕ} {db : DBImpl} (h : Shows opt name s m) (th : Thread) (u : ℕ) :
    Function.update m.calls t th.called u =
      ((({ s with db } : Concurrent).setThread t th).threads u).called := by
  by_cases hut : u = t
  · subst hut
    rw [setThread_self, Function.update_self]
  · rw [setThread_of_ne th hut, Function.update_of_ne hut, h.calls]

/-- A step of a thread is one that the map allows. -/
theorem act (h : Shows opt name s m) (hg : s.Orderly opt a) (hstep : step opt s a = some s') :
    ∃ m', AtomicMap.Spec opt m (.act a) (s.reply opt (.act a)) m' ∧ Shows opt name s' m' := by
  obtain ⟨L, ht⟩ := h.tidy
  obtain ⟨L', hturn, ht'⟩ := ht.step hg hstep
  have hranked := h.ranked.turn ht ht' hg hturn
  have hname := hturn.name.trans h.name
  have hrecordOf := h.ranked.recordOf_turn ht ht' hturn
  have hsound := ht.sound
  -- A step that writes no index entry is not seen.
  have hsilent : (∀ t w, a ≠ .write t w) → (∀ t, a ≠ .index t) → s.reply opt (.act a) = none →
      (∀ t, m.calls t = (s'.threads t).called) →
      ∃ m', AtomicMap.Spec opt m (.act a) (s.reply opt (.act a)) m' ∧ Shows opt name s' m' := by
    intro hwrite hindex hreply hcalls
    rw [hreply]
    refine ⟨m, .silent hwrite hindex, ⟨L', ht'⟩, hranked, hname, fun key => ?_, hcalls⟩
    rw [hrecordOf hindex key, h.replies]
  cases hturn with
  | @refused t w status hidle hprepare =>
    have hreply : s.reply opt (.act (.write t w)) = some status := by
      simp only [reply, hprepare]
    unfold DBImpl.prepare at hprepare
    split_ifs at hprepare with hreadonly hbig
    · rw [hsound.writable] at hreadonly
      cases hreadonly
    · obtain rfl := Except.error.inj hprepare
      rw [hreply]
      exact ⟨m, .refuse (by rw [h.calls, hidle]; rfl) hbig, h⟩
  | @called t w e hidle hprepare =>
    have hreply : s.reply opt (.act (.write t w)) = none := by
      simp only [reply, hprepare]
    unfold DBImpl.prepare at hprepare
    split_ifs at hprepare with hreadonly hbig
    rw [hreply]
    exact ⟨_, .call (by rw [h.calls, hidle]; rfl) (not_lt.mp hbig), ⟨L, ht'⟩, hranked, h.name,
      h.replies, h.calls_update (.append w)⟩
  | @appended t opens w hat hs hroom =>
    refine hsilent (by simp) (by simp) ?_ (h.calls_setThread (by rw [hat]; rfl))
    simp only [reply, hat, hsound.holds.append_eq_of_opens hs hroom.1 hroom.2.1]
  | @indexed t w loc hat =>
    have hloc : Located L loc (DBImpl.entryOf opt w) := ht.inv.carries hat
    have hfile := ht.landed t loc (by rw [hat]; rfl)
    have hreply : s.reply opt (.act (.index t)) = some (m.map.put w.key w.value).1 := by
      simp only [reply, hat, hsound.updateIndex_status_eq h.replies]
    rw [hreply]
    exact ⟨_, .effect (by rw [h.calls, hat]; rfl), ⟨L, ht'⟩, hranked, hname,
      hsound.replyTo_updateIndex h.replies hloc hfile, h.calls_update .idle⟩
  | copied hat => exact hsilent (by simp) (by simp) rfl (h.calls_setThread (by rw [hat]; rfl))
  | installed hat => exact hsilent (by simp) (by simp) rfl (h.calls_setThread (by rw [hat]; rfl))
  | removed hat => exact hsilent (by simp) (by simp) rfl (h.calls_setThread (by rw [hat]; rfl))
  | moved ha _ _ _ _ hold hnew =>
    exact hsilent ha.ne_write ha.ne_index (reply_of_background ha)
      (h.calls_setThread (hnew.1.trans hold.symm))
  | kept ha => exact hsilent ha.ne_write ha.ne_index (reply_of_background ha) h.calls

/-- A process that opens the files finds of each key what it was, or what a write in flight makes
of it. -/
theorem recordOf_opened {db : DBImpl} (h : Shows opt name s m) (ht : Tidy opt s L)
    (hsound : db.Sound (L.restrict s.db.fileManager.metadata.files))
    (hreflects : Reflects recordView
      {r | r.1.id ∈ s.db.fileManager.metadata.files ∧ Located L r.1 r.2} db.find) (key : Key) :
    db.recordOf key = s.db.recordOf key ∨ ∃ t w, m.calls t = some w ∧ w.key = key ∧
      db.recordOf key = if w.value = [] then none else some (DBImpl.entryOf opt w) := by
  have hmem : ∀ {r : Location × Entry}, r ∈ s.db.fileManager.recorded ↔
      r ∈ {r : Location × Entry | r.1.id ∈ s.db.fileManager.metadata.files ∧ Located L r.1 r.2} :=
    ht.sound.mem_recorded
  -- A write that waits has the record that is at its location.
  have hwaits : ∀ {r : Location × Entry}, r ∈ s.db.fileManager.recorded → s.Waits key r.1 →
      ∃ t w, m.calls t = some w ∧ w.key = key ∧ r.2 = DBImpl.entryOf opt w := by
    rintro r hr ⟨t, w, hu, hkey⟩
    have hloc : Located L r.1 (DBImpl.entryOf opt w) := ht.inv.carries hu
    exact ⟨t, w, by rw [h.calls, hu]; rfl, hkey, (hmem.mp hr).2.unique hloc⟩
  -- The record that the index leads to, if it does.
  have hlive : ∀ {dir}, s.db.find key = some dir → ∃ e, s.db.recordOf key = some e ∧
      (dir.loc, e) ∈ s.db.fileManager.recorded ∧ e.key = key ∧ e.type = .kSet := by
    intro dir hfind
    obtain ⟨e, hloc, hkey, htype, -⟩ := ht.sound.pointed key dir hfind
    exact ⟨e, ht.sound.recordOf_eq hfind hloc, hmem.mpr ⟨ht.sound.kept key dir hfind, hloc⟩, hkey,
      htype⟩
  rcases hfind' : db.find key with _ | dir'
  · -- The key is absent now.
    rw [DBImpl.recordOf_of_none hfind']
    rcases hfind : s.db.find key with _ | dir
    · exact Or.inl (DBImpl.recordOf_of_none hfind).symm
    · obtain ⟨e, hrecord, he, hkey, htype⟩ := hlive hfind
      obtain ⟨r, hr, hkey', hsets, hlt⟩ := hreflects.dead key hfind' _ (hmem.mp he) hkey htype
      have hr := hmem.mpr hr
      rcases h.ranked.newest key dir hfind r hr hkey' hlt with hsame | hwait
      · rw [hrecord, Option.some_inj] at hsame
        exact absurd ((recordView_sets r).mpr (hsame ▸ htype)) hsets
      · obtain ⟨t, w, hcall, hw, hentry⟩ := hwaits hr hwait
        refine Or.inr ⟨t, w, hcall, hw, ?_⟩
        rw [if_pos]
        by_contra hvalue
        exact hsets ((recordView_sets r).mpr (hentry ▸ DBImpl.entryOf_kSet.mpr hvalue))
  · obtain ⟨r, hr, hkey, hsets, rfl, hmax⟩ := hreflects.live key dir' hfind'
    have hr := hmem.mpr hr
    have htype : r.2.type = .kSet := (recordView_sets r).mp hsets
    rw [hsound.recordOf_eq hfind' (located_restrict_iff.mpr (hmem.mp hr))]
    by_cases hwait : s.Waits key r.1
    · obtain ⟨t, w, hcall, hw, hentry⟩ := hwaits hr hwait
      refine Or.inr ⟨t, w, hcall, hw, ?_⟩
      rw [if_neg (DBImpl.entryOf_kSet.mp (hentry ▸ htype)), hentry]
    · left
      rcases hfind : s.db.find key with _ | dir
      · -- Behind a record of an absent key there was a tombstone.
        obtain hwait' | ⟨r', hr', hkey', -, hlt⟩ :=
          h.ranked.dead r hr htype ((congrArg s.db.find hkey).trans hfind)
        · exact absurd (hkey ▸ hwait') hwait
        · exact absurd (hmax r' (hmem.mp hr') (hkey'.trans hkey)) (not_le_of_gt hlt)
      · obtain ⟨e, hrecord, he, hkey', -⟩ := hlive hfind
        rcases (hmax _ (hmem.mp he) hkey').lt_or_eq with hlt | heq
        · exact ((h.ranked.newest key dir hfind r hr hkey hlt).resolve_right hwait).symm
        · have hloc : dir.loc = r.1 := heq
          rw [hrecord, Option.some_inj]
          exact (hmem.mp hr).2.unique (hloc ▸ (hmem.mp he).2)

/-- The process dies, and another one opens the database. -/
theorem crash (h : Shows opt name s m) (hname : name.length < 2 ^ 16)
    (hcrash : s.fateStep opt name .crash = some s') :
    ∃ m', AtomicMap.Spec opt m .crash none m' ∧ Shows opt name s' m' := by
  obtain ⟨L, ht⟩ := h.tidy
  obtain ⟨db, rest, hopen, hre, hmetadata, hreflects⟩ :=
    ht.sound.exists_opened opt name ht.room (h.name.symm ▸ hname)
  rw [fateStep, hopen, Option.map_some, Option.some.injEq] at hcrash
  subst hcrash
  obtain ⟨hdurable, htomb⟩ :=
    Session.Durable.of_reopened rest ht.inv.written ht.room h.name hre hmetadata hreflects
  obtain ⟨map, hmap⟩ := hre.sound.exists_map hdurable.inv.written
  refine ⟨{ map, calls := fun _ => none }, .crash (fun _ => rfl) fun key => ?_,
    .start hdurable ⟨rfl, rfl⟩ htomb hmap⟩
  have hkey := hmap key
  rcases h.recordOf_opened ht hre.sound hreflects key with hsame | ⟨t, w, hcall, rfl, hdone⟩
  · rw [hsame, h.replies] at hkey
    exact Or.inl (KeyMap.eq_of_get_eq hkey).symm
  · refine Or.inr ⟨t, w, hcall, rfl, KeyMap.eq_of_get_eq (hkey.symm.trans ?_)⟩
    rw [hdone, KeyMap.get, KeyMap.put_snd, Function.update_self]
    split_ifs
    · rfl
    · exact DBImpl.replyOf_entryOf

end Shows

end

open scoped Reference

end Concurrent
end PedroDB
