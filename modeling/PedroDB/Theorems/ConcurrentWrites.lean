import Mathlib.Data.Set.Finite.Lattice
import PedroDB.InFlight
import PedroDB.Reference

/-!
# Concurrent writes

A write appends its record in one section and updates the index in another, and it does not
compare locations there. Two writes of one key can pass each other in between; then the index
leads to the record that the recovery takes for the older one.

## Main definitions

* `FileManager.recorded` — the records of the registered files
* `DBImpl.Agrees` — the index is right about the newest record of every key
* `Concurrent.InOrder` — no write updates the index after a newer one of its key

## Main results

* `Concurrent.forall_agrees_iff` — index and log agree all along a run exactly if the index
  updates are in order
* `Concurrent.agrees_of_run` — then a restart finds the same index
* `Concurrent.exists_not_agrees` — two calls of `Put` that pass each other
-/

namespace PedroDB

open Transition LastWriter

section

variable [Platform] {opt : Options} {L L' : Log}

/-- The records of the registered files, with their locations. -/
def FileManager.recorded (fm : FileManager) : Set (Location × Entry) :=
  {r | r.1.id ∈ fm.metadata.files ∧ Located fm.log r.1 r.2}

/-- The index is right about the record of each key with the greatest location, unless a write
in flight is going to put it there. -/
structure DBImpl.Agrees (db : DBImpl) (pend : Key → Location → Prop) : Prop where
  newest : ∀ r, LastWriter.Newest recordView db.fileManager.recorded r → ¬ pend r.2.key r.1 →
    db.find r.2.key =
      if r.2.type = .kSet then some { entry_size := r.2.size, loc := r.1 } else none
  absent : ∀ key, (∀ r ∈ db.fileManager.recorded, r.2.key ≠ key) → db.find key = none

namespace DBImpl

variable {db : DBImpl} {r : Location × Entry} {e : Entry}

theorem Sound.mem_recorded (h : db.Sound L) : r ∈ db.fileManager.recorded ↔
    r.1.id ∈ db.fileManager.metadata.files ∧ Located L r.1 r.2 := by
  rw [← h.holds.log_eq]
  rfl

theorem Sound.recorded_finite (h : db.Sound L) : db.fileManager.recorded.Finite := by
  have hfiles : (⋃ id ∈ db.fileManager.metadata.files, {r | r ∈ L.records id}).Finite :=
    Set.Finite.biUnion (Finset.finite_toSet _) fun id _ => List.finite_toSet _
  refine hfiles.subset fun r hr => ?_
  obtain ⟨hid, hloc⟩ := h.mem_recorded.mp hr
  exact Set.mem_biUnion hid (Log.mem_records_iff.mpr ⟨rfl, hloc⟩)

/-- Other writes may be in flight, as long as log and index stay as they are. -/
theorem Agrees.congr {db' : DBImpl} {pend pend' : Key → Location → Prop} (h : db.Agrees pend)
    (hrecorded : db'.fileManager.recorded = db.fileManager.recorded) (hfind : db'.find = db.find)
    (hpend : ∀ key loc, pend key loc → pend' key loc) : db'.Agrees pend' where
  newest := by
    rw [hrecorded, hfind]
    exact fun r hr hnot => h.newest r hr fun hp => hnot (hpend _ _ hp)
  absent := by
    rw [hrecorded, hfind]
    exact h.absent

/-- `Append` adds one record. -/
theorem Sound.recorded_appended (h : db.Sound L) (hs : e.Storable)
    (hwrap : ¬ db.fileManager.Wraps e) :
    (db.fileManager.appended e).recorded =
      insert (db.fileManager.nextLoc e, e) db.fileManager.recorded := by
  have hsound := h.appended hs hwrap
  ext r
  rw [Set.mem_insert_iff, h.mem_recorded]
  refine hsound.mem_recorded.trans ⟨?_, ?_⟩
  · rintro ⟨hid, hloc⟩
    exact (h.holds.located_appended hid hloc).imp_left fun hnew => Prod.ext hnew.1 hnew.2
  · rintro (rfl | ⟨hid, hloc⟩)
    · exact ⟨hsound.registered.nextLoc_mem, h.holds.located_nextLoc⟩
    · exact ⟨FileManager.files_subset_appended hid, hloc.add _ _⟩

/-- The new record is the newest one of its key, and its write is in flight. -/
theorem Agrees.appended {pend pend' : Key → Location → Prop} (hagrees : db.Agrees pend)
    (h : db.Sound L) (hs : e.Storable) (hwrap : ¬ db.fileManager.Wraps e)
    (hpend : ∀ key loc, pend key loc ∨ key = e.key ∧ loc = db.fileManager.nextLoc e →
      pend' key loc) :
    ({ db with fileManager := db.fileManager.appended e } : DBImpl).Agrees pend' where
  newest := by
    intro r hr hnot
    dsimp only at hr
    rw [h.recorded_appended hs hwrap] at hr
    rcases Set.mem_insert_iff.mp hr.1 with rfl | hold
    · exact absurd (hpend _ _ (Or.inr ⟨rfl, rfl⟩)) hnot
    · have hlt : r.1 < db.fileManager.nextLoc e :=
        h.holds.lt_nextLoc h.registered hold.1 (h.mem_recorded.mp hold).2
      have hkey : r.2.key ≠ e.key := fun hkey =>
        absurd (hr.2 _ (Set.mem_insert _ _) hkey.symm) (not_le.mpr hlt)
      refine hagrees.newest r ⟨hold, fun x hx => hr.2 x (Set.mem_insert_of_mem _ hx)⟩ ?_
      exact fun hp => hnot (hpend _ _ (Or.inl hp))
  absent := by
    intro key hkey
    refine hagrees.absent key fun r hr => hkey r ?_
    dsimp only
    rw [h.recorded_appended hs hwrap]
    exact Set.mem_insert_of_mem _ hr

/-- When no write is in flight, the index reflects the log. -/
theorem Sound.reflects (h : db.Sound L) (hagrees : db.Agrees fun _ _ => False) :
    Reflects recordView db.fileManager.recorded db.find := by
  refine Reflects.of_newest h.recorded_finite (fun r hr r' hr' hpos => ?_) (fun r hr hset => ?_)
    (fun r hr hdelete => ?_) hagrees.absent
  · refine Prod.ext hpos ?_
    have hloc' := (h.mem_recorded.mp hr').2
    rw [← show r.1 = r'.1 from hpos] at hloc'
    exact (h.mem_recorded.mp hr).2.unique hloc'
  · rw [recordView_key, hagrees.newest r hr not_false, if_pos (recordView_sets r |>.mp hset)]
    rfl
  · rw [recordView_key, hagrees.newest r hr not_false,
      if_neg fun hset => hdelete (recordView_sets r |>.mpr hset)]

/-- A database whose index agrees with its log has the same index after a restart. -/
theorem Sound.exists_reopened_eq (opt : Options) (name : Bytes) (buffer : ReadBuffer)
    (h : db.Sound L) (hagrees : db.Agrees fun _ _ => False)
    (hname : db.fileManager.metadata.name.length < 2 ^ 16)
    (hfilled : Session.Unfilled db.fileManager) :
    ∃ db' rest, openDb opt .sound name db.fileManager.disk buffer = some (.kOk, db', rest) ∧
      ∀ key, db'.find key = db.find key := by
  have hreflects := h.reflects hagrees
  have hrecorded : ∀ {loc e}, loc.id ∈ db.fileManager.metadata.files → Located L loc e →
      (loc, e) ∈ db.fileManager.recorded := fun hid hloc => h.mem_recorded.mpr ⟨hid, hloc⟩
  have hnewest : DBImpl.Newest db L := by
    intro key dir hfind loc e hid hloc hkey
    obtain ⟨r, hr, -, -, rfl, hmax⟩ := hreflects.live key dir hfind
    exact hmax (loc, e) (hrecorded hid hloc) hkey
  obtain ⟨db', rest, hopen, -, -, -, hiff⟩ := h.exists_reopened opt name buffer hnewest hname
  refine ⟨db', rest, hopen, hiff.mpr ⟨fun key dir hfind => ?_, ?_⟩⟩
  · obtain ⟨r, hr, -, -, rfl, -⟩ := hreflects.live key dir hfind
    exact ⟨r.2, hfilled.readable hr.1 hr.2⟩
  · rintro loc e ⟨hid, hloc, -⟩ htype hfind
    obtain ⟨r, hr, hkey, hdelete, hlt⟩ := hreflects.dead e.key hfind (loc, e) ⟨hid, hloc⟩ rfl htype
    refine ⟨r.1, r.2, hfilled.readable hr.1 hr.2, hkey, ?_, hlt⟩
    exact (h.storable (h.mem_recorded.mp hr).2).type.resolve_left hdelete

end DBImpl

/-! ### Writes in flight -/

namespace Concurrent

variable {s s' : Concurrent} {a : Action}

/-- A write of the key has its record at this location, and has still to update the index. -/
def Waits (s : Concurrent) (key : Key) (loc : Location) : Prop :=
  ∃ t w, s.threads t = .index w loc ∧ w.key = key

variable (opt) in
/-- Threads write, and the executor runs the tasks of the file manager. Keys and stored values
fit their header, there is a file id left for a roll-over, and the new file opens. -/
def Writes (s : Concurrent) : Action → Prop
  | .write _ w => w.Representable opt
  | .append t opens =>
    match s.threads t with
    | .append w => ¬ s.db.fileManager.Wraps (DBImpl.entryOf opt w) ∧
        (¬ s.db.fileManager.Fits (DBImpl.entryOf opt w) →
          opens (s.db.fileManager.activeFileId + 1) = .kOk)
    | _ => True
  | .index _ | .task _ => True
  | _ => False

instance (s : Concurrent) : (a : Action) → Decidable (s.Writes opt a)
  | .write _ w => inferInstanceAs (Decidable (w.Representable opt))
  | .append t opens =>
    match h : s.threads t with
    | .append w =>
      decidable_of_iff (¬ s.db.fileManager.Wraps (DBImpl.entryOf opt w) ∧
          (¬ s.db.fileManager.Fits (DBImpl.entryOf opt w) →
            opens (s.db.fileManager.activeFileId + 1) = .kOk))
        (by simp only [Writes, h])
    | .idle | .index _ _ | .compact _ _ => .isTrue (by simp only [Writes, h])
  | .index _ | .task _ => .isTrue trivial
  | .poll | .start _ _ | .compact _ | .block _ _ | .fail _ | .readonly => .isFalse id

/-- When a write updates the index, the newest record of its key is its own or that of another
write in flight, or both are tombstones. -/
def InOrder (s : Concurrent) : Action → Prop
  | .index t =>
    match s.threads t with
    | .index w _ => ∀ r, LastWriter.Newest recordView s.db.fileManager.recorded r →
        r.2.key = w.key → s.Waits w.key r.1 ∨ w.value = [] ∧ r.2.type = .kDelete
    | _ => True
  | _ => True

/-- What holds while threads only write. -/
structure OnlyWrites (opt : Options) (s : Concurrent) (L : Log) : Prop where
  sound : s.db.Sound L
  threads : ∀ t, (s.threads t).Carries opt L (s.buffers t)
  files : ∀ t w loc, s.threads t = .index w loc → loc.id ∈ s.db.fileManager.metadata.files
  name : s.db.fileManager.metadata.name.length < 2 ^ 16

omit [Platform] in
theorem waits_setThread {t : ℕ} {th : Thread} {db : DBImpl} {key : Key} {loc : Location}
    (hold : ∀ w loc, s.threads t ≠ .index w loc) :
    (({ s with db } : Concurrent).setThread t th).Waits key loc ↔
      s.Waits key loc ∨ ∃ w, th = .index w loc ∧ w.key = key := by
  constructor
  · rintro ⟨u, w, hu, hkey⟩
    by_cases hut : u = t
    · subst hut
      rw [setThread_self] at hu
      exact Or.inr ⟨w, hu, hkey⟩
    · rw [setThread_of_ne th hut] at hu
      exact Or.inl ⟨u, w, hu, hkey⟩
  · rintro (⟨u, w, hu, hkey⟩ | ⟨w, rfl, hkey⟩)
    · have hut : u ≠ t := by
        rintro rfl
        exact hold w loc hu
      exact ⟨u, w, by rw [setThread_of_ne th hut]; exact hu, hkey⟩
    · exact ⟨t, w, setThread_self .., hkey⟩

omit [Platform] in
/-- What waits after the index update of thread `t`. -/
theorem waits_indexed {t : ℕ} {w : Write} {loc l : Location} {db : DBImpl} {key : Key}
    (ht : s.threads t = .index w loc) (hne : key ≠ w.key ∨ l ≠ loc) :
    (({ s with db } : Concurrent).setThread t .idle).Waits key l ↔ s.Waits key l := by
  constructor
  · rintro ⟨u, w', hu, hkey⟩
    exact ⟨u, w', index_of_setThread (by simp) hu, hkey⟩
  · rintro ⟨u, w', hu, rfl⟩
    refine ⟨u, w', ?_, rfl⟩
    have hut : u ≠ t := by
      rintro rfl
      obtain ⟨rfl, rfl⟩ := Thread.index.inj (ht.symm.trans hu)
      exact hne.elim (fun h => h rfl) fun h => h rfl
    rw [setThread_of_ne _ hut]
    exact hu

namespace OnlyWrites

theorem carries {t : ℕ} {th : Thread} (h : OnlyWrites opt s L) (ht : s.threads t = th) :
    th.Carries opt L (s.buffers t) :=
  ht ▸ h.threads t

theorem located (h : OnlyWrites opt s L) {t : ℕ} {w : Write} {loc : Location}
    (ht : s.threads t = .index w loc) : Located L loc (DBImpl.entryOf opt w) :=
  h.carries ht

/-- A record is appended. -/
theorem appended {t : ℕ} {w : Write} (h : OnlyWrites opt s L) (ht : s.threads t = .append w)
    (hs : (DBImpl.entryOf opt w).Storable)
    (hwrap : ¬ s.db.fileManager.Wraps (DBImpl.entryOf opt w)) :
    OnlyWrites opt
      ({ s with
        db := { s.db with
          fileManager := s.db.fileManager.appended (DBImpl.entryOf opt w) } }.setThread t
        (.index w (s.db.fileManager.nextLoc (DBImpl.entryOf opt w))))
      (L.add (s.db.fileManager.nextLoc (DBImpl.entryOf opt w)).id (DBImpl.entryOf opt w)) where
  sound := h.sound.appended hs hwrap
  threads := Inv.threads_setThread (fun u => (h.threads u).add _ _) h.sound.holds.located_nextLoc
  files := by
    intro u w' loc hu
    by_cases hut : u = t
    · subst hut
      rw [setThread_self] at hu
      obtain ⟨rfl, rfl⟩ := Thread.index.inj hu
      exact (h.sound.appended hs hwrap).registered.nextLoc_mem
    · rw [setThread_of_ne _ hut] at hu
      exact FileManager.files_subset_appended (h.files u w' loc hu)
  name := by
    rw [setThread_db, FileManager.appended_name]
    exact h.name

/-- The index is updated. -/
theorem indexed {t : ℕ} {w : Write} {loc : Location} (h : OnlyWrites opt s L)
    (ht : s.threads t = .index w loc) :
    OnlyWrites opt ({ s with db := (DBImpl.updateIndex opt w loc s.db).2 }.setThread t .idle) L where
  sound := h.sound.updateIndex (h.located ht) (h.files t w loc ht)
  threads := Inv.threads_setThread h.threads trivial
  files := by
    intro u w' l hu
    rw [setThread_db, DBImpl.updateIndex_fileManager]
    exact h.files u w' l (index_of_setThread (by simp) hu)
  name := by
    rw [setThread_db, DBImpl.updateIndex_fileManager]
    exact h.name

/-- Index and log agree after the index update exactly if it is in order. -/
theorem agrees_indexed_iff {t : ℕ} {w : Write} {loc : Location} (h : OnlyWrites opt s L)
    (hagrees : s.db.Agrees s.Waits) (ht : s.threads t = .index w loc)
    (hs' : ({ s with db := (DBImpl.updateIndex opt w loc s.db).2 } : Concurrent).setThread t .idle =
      s') : s'.db.Agrees s'.Waits ↔ s.InOrder (.index t) := by
  have hfind : s'.db.find = (DBImpl.updateIndex opt w loc s.db).2.find := by
    rw [← hs']
    rfl
  have hfm : s'.db.fileManager = s.db.fileManager := by
    rw [← hs', setThread_db, DBImpl.updateIndex_fileManager]
  have hwaits : ∀ {key l}, key ≠ w.key ∨ l ≠ loc → (s'.Waits key l ↔ s.Waits key l) := by
    intro key l hne
    rw [← hs']
    exact waits_indexed ht hne
  have hmem : (loc, DBImpl.entryOf opt w) ∈ s.db.fileManager.recorded :=
    h.sound.mem_recorded.mpr ⟨h.files t w loc ht, h.located ht⟩
  simp only [InOrder, ht]
  constructor
  · intro hagrees' r hr hkey
    by_cases hwait : s.Waits w.key r.1
    · exact Or.inl hwait
    · right
      have hne : r.1 ≠ loc := by
        rintro hloc
        exact hwait ⟨t, w, by rw [ht, hloc], rfl⟩
      have hnew := hagrees'.newest r (hfm ▸ hr) (by
        rw [hkey, hwaits (Or.inr hne)]
        exact hwait)
      rw [hkey, hfind, DBImpl.find_updateIndex, if_pos rfl] at hnew
      by_cases hvalue : w.value = []
      · rw [if_pos hvalue] at hnew
        refine ⟨hvalue, ?_⟩
        have hstorable := h.sound.storable (h.sound.mem_recorded.mp hr.1).2
        refine hstorable.type.resolve_left fun htype => ?_
        rw [if_pos htype] at hnew
        cases hnew
      · rw [if_neg hvalue] at hnew
        split_ifs at hnew with htype
        exact absurd (congrArg Dir.loc (Option.some_inj.mp hnew)).symm hne
  · intro horder
    refine ⟨fun r hr hpend => ?_, fun key hkey => ?_⟩
    · rw [hfm] at hr
      rw [hfind, DBImpl.find_updateIndex]
      by_cases hkey : r.2.key = w.key
      · rw [if_pos hkey]
        by_cases hloc : r.1 = loc
        · -- The record of this write is the newest one.
          have hentry : r.2 = DBImpl.entryOf opt w :=
            (h.sound.mem_recorded.mp hr.1).2.unique (hloc ▸ h.located ht)
          rw [hentry, hloc, (h.sound.storable (h.located ht)).sizeOf_eq]
          by_cases hvalue : w.value = []
          · rw [if_pos hvalue, if_neg fun htype => DBImpl.entryOf_kSet.mp htype hvalue]
          · rw [if_neg hvalue, if_pos (DBImpl.entryOf_kSet.mpr hvalue)]
        · rw [hkey, hwaits (Or.inr hloc)] at hpend
          obtain ⟨hvalue, htype⟩ := (horder r hr hkey).resolve_left hpend
          rw [if_pos hvalue, htype]
          simp
      · rw [if_neg hkey]
        exact hagrees.newest r hr fun hwait => hpend ((hwaits (Or.inl hkey)).mpr hwait)
    · rw [hfm] at hkey
      have hne : key ≠ w.key := fun heq => hkey _ hmem heq.symm
      rw [hfind, DBImpl.find_updateIndex, if_neg hne]
      exact hagrees.absent key hkey

/-- One step. -/
theorem step (h : OnlyWrites opt s L) (hw : s.Writes opt a)
    (hstep : Concurrent.step opt s a = some s') :
    ∃ L', OnlyWrites opt s' L' ∧
      (s.db.Agrees s.Waits → (s'.db.Agrees s'.Waits ↔ s.InOrder a)) := by
  cases step_effect hstep with
  | refused => exact ⟨L, h, fun hagrees => iff_of_true hagrees trivial⟩
  | @write t w e hidle hprepare =>
    have hold : ∀ w loc, s.threads t ≠ .index w loc := by simp [hidle]
    refine ⟨L, ⟨h.sound, Inv.threads_setThread h.threads (DBImpl.storable_of_prepare hw hprepare),
      fun u w' loc hu => h.files u w' loc (index_of_setThread (by simp) hu), h.name⟩,
      fun hagrees => iff_of_true ?_ trivial⟩
    exact hagrees.congr rfl rfl fun key loc hwait => (waits_setThread hold).mpr (Or.inl hwait)
  | @append t opens w loc fm ht happend =>
    have hs : (DBImpl.entryOf opt w).Storable := h.carries ht
    simp only [Writes, ht] at hw
    rw [h.sound.holds.append_eq_of_opens hs hw.1 hw.2] at happend
    obtain ⟨-, rfl, rfl⟩ : _ ∧ _ ∧ _ := by
      simpa only [Option.some.injEq, Prod.mk.injEq] using happend
    have hold : ∀ w loc, s.threads t ≠ .index w loc := by simp [ht]
    refine ⟨_, h.appended ht hs hw.1, fun hagrees => iff_of_true ?_ trivial⟩
    refine hagrees.appended h.sound hs hw.1 fun key loc hwait => (waits_setThread hold).mpr ?_
    refine hwait.imp_right ?_
    rintro ⟨rfl, rfl⟩
    exact ⟨w, rfl, rfl⟩
  | @appendFail t opens w status loc fm ht hne happend =>
    have hs : (DBImpl.entryOf opt w).Storable := h.carries ht
    simp only [Writes, ht] at hw
    rw [h.sound.holds.append_eq_of_opens hs hw.1 hw.2] at happend
    simp only [Option.some.injEq, Prod.mk.injEq] at happend
    exact absurd happend.1.symm hne
  | index ht => exact ⟨L, h.indexed ht, fun hagrees => h.agrees_indexed_iff hagrees ht rfl⟩
  | @task i fm hrun =>
    have hsound := h.sound.runTask hrun
    obtain ⟨tasks, indexFiles, rfl⟩ := FileManager.runTask_eq hrun
    exact ⟨L, ⟨hsound, h.threads, h.files, h.name⟩, fun hagrees => iff_of_true
      (hagrees.congr rfl rfl fun _ _ hwait => hwait) trivial⟩
  | _ => exact hw.elim

end OnlyWrites

/-- A database that is not in use. -/
theorem onlyWrites_start {db : DBImpl} (h : db.Sound L)
    (hname : db.fileManager.metadata.name.length < 2 ^ 16) : OnlyWrites opt (start db) L :=
  ⟨h, fun _ => trivial, fun _ _ _ hu => (Thread.noConfusion hu), hname⟩

variable {db : DBImpl} {as : List Action}

/-- Threads write to a database whose index agrees with its log. Then index and log agree in
all states of the run, up to the writes in flight, exactly if each index update is in order. -/
theorem forall_agrees_iff (hsound : db.Sound L) (hagrees : db.Agrees fun _ _ => False)
    (hname : db.fileManager.metadata.name.length < 2 ^ 16)
    (hrun : Run (step opt) (start db) as s)
    (hwrites : Meets (step opt) (Writes opt) (start db) as) :
    (∀ bs u, bs <+: as → Run (step opt) (start db) bs u → u.db.Agrees u.Waits) ↔
      Meets (step opt) InOrder (start db) as := by
  refine hrun.forall_prefix_iff_meets (P := fun u => u.db.Agrees u.Waits)
    (I := fun u => ∃ L, OnlyWrites opt u L) hwrites
    ⟨⟨L, onlyWrites_start hsound hname⟩, hagrees.congr rfl rfl fun _ _ => False.elim⟩ ?_ ?_
  · rintro t a u ⟨L, h⟩ - - hw hstep
    obtain ⟨L', h', -⟩ := h.step hw hstep
    exact ⟨L', h'⟩
  · rintro t a u ⟨L, h⟩ hagrees hw hstep
    obtain ⟨L', -, hiff⟩ := h.step hw hstep
    exact hiff hagrees

/-- If each index update is in order, then index and log agree when no write waits for its
index update. The database can be opened again, and has the same index then, unless a data
file without index file is full to its last byte. -/
theorem agrees_of_run (hsound : db.Sound L) (hagrees : db.Agrees fun _ _ => False)
    (hname : db.fileManager.metadata.name.length < 2 ^ 16)
    (hrun : Run (step opt) (start db) as s)
    (hmeets : Meets (step opt) (fun s a => s.Writes opt a ∧ s.InOrder a) (start db) as)
    (hidle : ∀ t w loc, s.threads t ≠ .index w loc) :
    s.db.Agrees (fun _ _ => False) ∧
      (Session.Unfilled s.db.fileManager → ∀ name buffer, ∃ db' rest,
        DBImpl.openDb opt .sound name s.db.fileManager.disk buffer = some (.kOk, db', rest) ∧
          ∀ key, db'.find key = s.db.find key) := by
  have hwrites := hmeets.mono fun _ _ hg => hg.1
  have horder := hmeets.mono fun _ _ hg => hg.2
  have hall := (forall_agrees_iff hsound hagrees hname hrun hwrites).mpr horder
  have hend : s.db.Agrees fun _ _ => False := by
    refine (hall as s (List.prefix_refl as) hrun).congr rfl rfl ?_
    rintro key loc ⟨t, w, ht, -⟩
    exact hidle t w loc ht
  obtain ⟨L', h⟩ := hrun.invariant (P := fun s => ∃ L, OnlyWrites opt s L) hwrites
    ⟨L, onlyWrites_start hsound hname⟩ fun s a s' ⟨L, h⟩ hw hstep => by
      obtain ⟨L', h', -⟩ := h.step hw hstep
      exact ⟨L', h'⟩
  exact ⟨hend, fun hfilled name buffer =>
    h.sound.exists_reopened_eq opt name buffer hend h.name hfilled⟩

end Concurrent

end

namespace Concurrent

open scoped Reference

/-- Two calls of `Put` for one key have appended their records, and none has updated the index. -/
def putInTurn : List Action :=
  [.write 0 (.put [107] [1]), .write 1 (.put [107] [2]), .append 0 .sound, .append 1 .sound]

/-- The records of two writes to a new database. -/
theorem eq_of_mem_recorded {fm : FileManager} {r : Location × Entry} {e e' : Entry}
    (hfiles : fm.metadata.files = {1}) (hlog : fm.log 1 = [e, e']) (hr : r ∈ fm.recorded) :
    r = (⟨1, 0⟩, e) ∨ r = (⟨1, e.size⟩, e') := by
  obtain ⟨hid, hloc⟩ := hr
  rw [hfiles, Finset.mem_singleton] at hid
  rw [Located, hid, hlog] at hloc
  have hboth : RecordAt ([e] ++ [e']) r.1.offset r.2 := hloc
  rcases Framing.at_concat_iff.mp hboth with hfirst | ⟨hoffset, hentry⟩
  · obtain ⟨hoffset, hentry⟩ := Framing.at_singleton_iff.mp hfirst
    exact Or.inl (Prod.ext (Location.ext hid hoffset) hentry)
  · refine Or.inr (Prod.ext (Location.ext hid ?_) hentry)
    simpa using hoffset

theorem newDb_agrees : (Session.newDb Reference.options []).Agrees fun _ _ => False where
  newest := by
    rintro r ⟨⟨-, hloc⟩, -⟩ -
    rw [Session.newDb_sound.holds.log_eq] at hloc
    exact absurd hloc.mem List.not_mem_nil
  absent := fun _ _ => rfl

/-- Of two records of one key the second is the newest. -/
theorem inOrder_of_log {s : Concurrent} {t : ℕ} {w : Write} {loc : Location} {e e' : Entry}
    (ht : s.threads t = .index w loc) (hfiles : s.db.fileManager.metadata.files = {1})
    (hlog : s.db.fileManager.log 1 = [e, e']) (hkeys : e'.key = e.key)
    (hlast : s.Waits e'.key ⟨1, e.size⟩) : s.InOrder (.index t) := by
  simp only [InOrder, ht]
  rintro r ⟨hr, hnewest⟩ hkey
  rcases eq_of_mem_recorded hfiles hlog hr with rfl | rfl
  · -- The other record stands behind it.
    have hsecond : (⟨1, e.size⟩, e') ∈ s.db.fileManager.recorded := by
      have hat : RecordAt ([e] ++ [e']) e.size e' :=
        Framing.at_concat_iff.mpr (Or.inr ⟨by simp, rfl⟩)
      refine ⟨by simp [hfiles], ?_⟩
      rw [Located, hlog]
      exact hat
    have hlt : (⟨1, 0⟩ : Location) < ⟨1, e.size⟩ := Location.lt_iff.mpr (Or.inr ⟨rfl, e.size_pos⟩)
    exact absurd (hnewest _ hsecond hkeys) (not_le_of_gt hlt)
  · exact Or.inl (hkey ▸ hlast)

theorem agrees_of_run_putInTurn : ∃ s,
    Run (step Reference.options) (start (Session.newDb Reference.options []))
      (putInTurn ++ [.index 0] ++ [.index 1]) s ∧
    s.db.find [107] = some { entry_size := 16, loc := ⟨1, 16⟩ } ∧
    s.db.Agrees (fun _ _ => False) ∧
      (Session.Unfilled s.db.fileManager → ∀ name buffer, ∃ db' rest,
        DBImpl.openDb Reference.options .sound name s.db.fileManager.disk buffer =
            some (.kOk, db', rest) ∧
          ∀ key, db'.find key = s.db.find key) := by
  have hrun : (putInTurn.foldlM (step Reference.options)
      (start (Session.newDb Reference.options []))).bind (fun s₁ =>
        (step Reference.options s₁ (.index 0)).bind fun s₂ =>
          (step Reference.options s₂ (.index 1)).map fun s₃ =>
            decide (s₁.threads 0 = .index (.put [107] [1]) ⟨1, 0⟩ ∧
              (∀ s ∈ [s₁, s₂], s.threads 1 = .index (.put [107] [2]) ⟨1, 16⟩ ∧
                s.db.fileManager.metadata.files = {1} ∧
                s.db.fileManager.log 1 = [DBImpl.entryOf Reference.options (.put [107] [1]),
                  DBImpl.entryOf Reference.options (.put [107] [2])]) ∧
              s₃.threads 0 = .idle ∧ s₃.threads 1 = .idle ∧
              s₃.db.find [107] = some { entry_size := 16, loc := ⟨1, 16⟩ })) = some true := by
    decide +kernel
  obtain ⟨s₁, h₁, hrun⟩ := Option.bind_eq_some_iff.mp hrun
  obtain ⟨s₂, h₂, hrun⟩ := Option.bind_eq_some_iff.mp hrun
  obtain ⟨s₃, h₃, htrue⟩ := Option.map_eq_some_iff.mp hrun
  obtain ⟨hfirst, hlog, hidle, hidle', hfind⟩ := of_decide_eq_true htrue
  obtain ⟨⟨hsecond₁, hfiles₁, hlog₁⟩, hsecond₂, hfiles₂, hlog₂⟩ := by simpa using hlog
  have hrun₂ : Run (step Reference.options) (start (Session.newDb Reference.options []))
      (putInTurn ++ [.index 0]) s₂ := run_concat.mpr ⟨s₁, h₁, h₂⟩
  have hrun₃ : Run (step Reference.options) (start (Session.newDb Reference.options []))
      (putInTurn ++ [.index 0] ++ [.index 1]) s₃ := run_concat.mpr ⟨s₂, hrun₂, h₃⟩
  have hwrites : Meets (step Reference.options) (Writes Reference.options)
      (start (Session.newDb Reference.options [])) putInTurn := meets_of_check (by decide +kernel)
  refine ⟨s₃, hrun₃, hfind,
    agrees_of_run Session.newDb_sound newDb_agrees (by decide) hrun₃ ?_ ?_⟩
  · refine (meets_concat hrun₂).mpr ⟨(meets_concat h₁).mpr ⟨?_, trivial, ?_⟩, trivial, ?_⟩
    · intro pre a post u heq hpre
      refine ⟨hwrites pre a post u heq hpre, ?_⟩
      have ha : a ∈ putInTurn := heq ▸ by simp
      simp only [putInTurn, List.mem_cons, List.not_mem_nil, or_false] at ha
      rcases ha with rfl | rfl | rfl | rfl <;> trivial
    · -- The newest record is that of the other call, which has still to update the index.
      exact inOrder_of_log hfirst hfiles₁ hlog₁ rfl ⟨1, _, hsecond₁, rfl⟩
    · exact inOrder_of_log hsecond₂ hfiles₂ hlog₂ rfl ⟨1, _, hsecond₂, rfl⟩
  · intro t w loc ht
    by_cases ht₀ : t = 0
    · rw [ht₀, hidle] at ht
      cases ht
    by_cases ht₁ : t = 1
    · rw [ht₁, hidle'] at ht
      cases ht
    rw [threads_of_run hrun₃ (by
      simp [putInTurn, Action.thread, Ne.symm ht₀, Ne.symm ht₁])] at ht
    cases ht

/-- Two calls of `Put` for one key, which pass each other between `Append` and index update. -/
def putTogether : List Action :=
  [.write 0 (.put [107] [1]), .write 1 (.put [107] [2]), .append 0 .sound, .append 1 .sound,
    .index 1, .index 0]

/-- Both have returned, and a restart finds another value. -/
theorem exists_not_agrees : ∃ s db' rest,
    Run (step Reference.options) (start (Session.newDb Reference.options [])) putTogether s ∧
    s.threads 0 = .idle ∧ s.threads 1 = .idle ∧ s.db.valueOf [107] = some [1] ∧
    DBImpl.openDb Reference.options .sound [] s.db.fileManager.disk ReadBuffer.empty =
      some (.kOk, db', rest) ∧
    db'.valueOf [107] = some [2] := by
  have hrun : (putTogether.foldlM (step Reference.options)
      (start (Session.newDb Reference.options []))).map (fun s =>
        decide (s.threads 0 = .idle ∧ s.threads 1 = .idle ∧ s.db.valueOf [107] = some [1] ∧
          ((DBImpl.openDb Reference.options .sound [] s.db.fileManager.disk
            ReadBuffer.empty).map fun r => (r.1, r.2.1.valueOf [107])) =
              some (.kOk, some [2]))) = some true := by
    decide +kernel
  obtain ⟨s, hs, htrue⟩ := Option.map_eq_some_iff.mp hrun
  obtain ⟨h₀, h₁, hvalue, hopen⟩ := of_decide_eq_true htrue
  obtain ⟨⟨status, db', rest⟩, hopen, heq⟩ := Option.map_eq_some_iff.mp hopen
  obtain ⟨rfl, hvalue'⟩ := Prod.mk.inj heq
  exact ⟨s, db', rest, hs, h₀, h₁, hvalue, hopen, hvalue'⟩

end Concurrent

end PedroDB
