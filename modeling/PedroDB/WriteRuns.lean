import PedroDB.Crash
import PedroDB.Reference

/-!
# Runs of writes

A client that only writes fills one data file after another. Where its records go follows from
their lengths alone, and what the writes leave in the index follows from where they go.

## Main definitions

* `Session.Placed` — the locations of the records
* `Session.Wrote` — what a run of writes leaves

## Main results

* `Session.Durable.exists_writes` — the run of these writes
-/

namespace PedroDB

open Transition Framing

/-- Where a record of this length goes, when the active file ends at `loc`. -/
def Location.place (loc : Location) (size : ℕ) : Location :=
  if loc.offset + size ≤ kMaxFileBytes then loc else ⟨loc.id + 1, 0⟩

namespace FileManager

variable [Platform] {fm : FileManager} {L : Log} {e : Entry}

/-- The end of the active file. -/
def endOfActive (fm : FileManager) : Location := ⟨fm.activeFileId, fm.activeOffset⟩

omit [Platform] in
theorem nextLoc_eq_place (fm : FileManager) (e : Entry) :
    fm.nextLoc e = fm.endOfActive.place e.size := by
  rfl

/-- The record goes where it fits, and the file behind it begins there. -/
theorem Holds.endOfActive_appended (h : fm.Holds L) (hs : e.Storable) :
    (fm.appended e).endOfActive =
      ⟨(fm.nextLoc e).id, (fm.nextLoc e).offset + e.size⟩ := by
  have hwrite : (fm.appended e).activeOffset = _ := (h.appended hs).write
  rw [endOfActive, hwrite, ← nextLoc_id, Log.add, Function.update_self, totalSize_concat]
  exact congrArg (fun loc => (⟨_, loc.offset + e.size⟩ : Location)) h.nextLoc_eq.symm

/-- What a write at this location makes of the files. -/
def placed (fm : FileManager) (loc : Location) (e : Entry) : FileManager :=
  addRecord loc.id e (if loc.id = fm.activeFileId then fm else fm.rolled)

theorem appended_eq_placed (fm : FileManager) (e : Entry) :
    fm.appended e = fm.placed (fm.nextLoc e) e := by
  unfold FileManager.appended nextLoc placed
  split_ifs with hfits hid
  · rfl
  · exact absurd rfl hid
  · next hid => exact absurd hid (Nat.succ_ne_self _)
  · rfl

end FileManager

/-- The index update does not look at the files. -/
theorem DBImpl.updateIndex_files [Platform] (opt : Options) (w : Write) (loc : Location)
    (db : DBImpl) (fm : FileManager) : (updateIndex opt w loc { db with fileManager := fm }).2 =
      { (updateIndex opt w loc db).2 with fileManager := fm } := by
  unfold updateIndex updateUnused
  dsimp only [find]
  split <;> split_ifs <;> rfl

namespace Session

section

variable [Platform] {opt : Options} {name : Bytes} {s : Session} {L : Log}

/-- A run without crashes. -/
theorem run_fates (name : Bytes) {as : List Action} {t : Session} (h : Run (step opt) s as t) :
    Run (fateStep opt name) s (as.map .act) t :=
  run_map.mpr h

theorem meets_fates (name : Bytes) {as : List Action}
    (h : Meets (step opt) (fun s a => Roomy opt s (.act a)) s as) :
    Meets (fateStep opt name) (Roomy opt) s (as.map .act) :=
  meets_map.mpr h

/-- The records of these writes go to these locations, one after another, when the active file
ends at `last`. Each is within the limits of its header and ends before its file does. -/
def Placed (opt : Options) : Location → List (Location × Write) → Prop
  | _, [] => True
  | last, (loc, w) :: rs =>
    loc = last.place (DBImpl.entryOf opt w).size ∧ w.key.length ≤ 255 ∧
      loc.offset + (DBImpl.entryOf opt w).size < kMaxFileBytes ∧ loc.id < 2 ^ 32 ∧
      Placed opt ⟨loc.id, loc.offset + (DBImpl.entryOf opt w).size⟩ rs

/-- The records of these writes were appended one after another, and the index was updated after
each. -/
structure Wrote (opt : Options) (s : Session) (L : Log) (rs : List (Location × Write))
    (t : Session) (L' : Log) : Prop where
  run : Run (step opt) s (rs.map fun r => .write r.2) t
  meets : Meets (step opt) (fun s a => Roomy opt s (.act a)) s (rs.map fun r => .write r.2)
  quiescent : t.Quiescent
  log : L' = rs.foldl (fun L r => L.add r.1.id (DBImpl.entryOf opt r.2)) L
  files : t.db.fileManager =
    rs.foldl (fun fm r => fm.placed r.1 (DBImpl.entryOf opt r.2)) s.db.fileManager
  index : t.db = { rs.foldl (fun db r => (DBImpl.updateIndex opt r.2 r.1 db).2) s.db with
    fileManager := t.db.fileManager }

/-- A record that ends inside a file with a 32-bit id is within the limits. -/
theorem roomy_write {w : Write} {loc : Location} (hkey : w.key.length ≤ 255)
    (hnext : s.nextLoc (DBImpl.entryOf opt w) = loc)
    (hend : loc.offset + (DBImpl.entryOf opt w).size < kMaxFileBytes) (hid : loc.id < 2 ^ 32) :
    Roomy opt s (.act (.write w)) := by
  subst hnext
  have hbytes : kMaxFileBytes = 134217728 := rfl
  refine ⟨⟨⟨hkey, by omega⟩, fun _ hwrap => ?_⟩, fun _ hfills => hend.ne hfills⟩
  have hnew : (s.nextLoc (DBImpl.entryOf opt w)).id = s.db.fileManager.activeFileId + 1 := by
    rw [nextLoc, FileManager.nextLoc, if_neg hwrap.1]
  have := hwrap.2
  omega

theorem foldl_updateIndex_files (rs : List (Location × Write)) (db : DBImpl) (fm : FileManager) :
    rs.foldl (fun db r => (DBImpl.updateIndex opt r.2 r.1 db).2) { db with fileManager := fm } =
      { rs.foldl (fun db r => (DBImpl.updateIndex opt r.2 r.1 db).2) db with
        fileManager := fm } := by
  induction rs generalizing db with
  | nil => rfl
  | cons r rs ih => rw [List.foldl_cons, DBImpl.updateIndex_files, ih, List.foldl_cons]

/-- Writes whose records have their places all return, one after another. -/
theorem Durable.exists_writes {rs : List (Location × Write)} (h : Durable opt name s L)
    (hidle : s.Quiescent) (hplaced : Placed opt s.db.fileManager.endOfActive rs) :
    ∃ t L', Wrote opt s L rs t L' ∧ Durable opt name t L' := by
  induction rs generalizing s L with
  | nil =>
    exact ⟨s, L, ⟨run_nil.mpr rfl, meets_nil, hidle, rfl, rfl, rfl⟩, h⟩
  | cons r rs ih =>
    obtain ⟨loc, w⟩ := r
    obtain ⟨hloc, hkey, hend, hid, hrest⟩ := hplaced
    have hnext : s.nextLoc (DBImpl.entryOf opt w) = loc :=
      (FileManager.nextLoc_eq_place _ _).trans hloc.symm
    have hsize : (DBImpl.entryOf opt w).size ≤ kMaxFileBytes := by omega
    have hg := roomy_write hkey hnext hend hid
    obtain ⟨u, hstep, hidleu, hdb, -, hu⟩ := h.exists_write hidle hg hsize
    have hs : (DBImpl.entryOf opt w).Storable := DBImpl.entryOf_storable hkey hsize
    have hfm : u.db.fileManager = s.db.fileManager.placed loc (DBImpl.entryOf opt w) := by
      rw [hdb, DBImpl.updateIndex_fileManager, ← hnext]
      exact FileManager.appended_eq_placed _ _
    have hlast : u.db.fileManager.endOfActive =
        ⟨loc.id, loc.offset + (DBImpl.entryOf opt w).size⟩ := by
      rw [hdb, DBImpl.updateIndex_fileManager, h.inv.sound.holds.endOfActive_appended hs]
      exact hnext ▸ rfl
    rw [hnext] at hu
    -- The other writes run from there.
    obtain ⟨t, L', hwrote, ht⟩ := ih hu hidleu (hlast ▸ hrest)
    refine ⟨t, L', ⟨run_cons.mpr ⟨u, hstep, hwrote.run⟩, meets_cons.mpr ⟨hg, ?_⟩,
      hwrote.quiescent, hwrote.log, ?_, ?_⟩, ht⟩
    · intro v hv
      obtain rfl := Option.some_inj.mp (hstep.symm.trans hv)
      exact hwrote.meets
    · rw [hwrote.files, hfm]
      rfl
    · rw [hwrote.index, hdb, hnext, DBImpl.updateIndex_files, foldl_updateIndex_files]
      rfl

/-- A write removes no file, and caches nothing. -/
theorem Wrote.careful {rs : List (Location × Write)} {t : Session} {L' : Log}
    (h : Wrote opt s L rs t L') :
    Meets (step opt) (Careful opt) s (rs.map fun r => .write r.2) :=
  meets_map.mpr ((meets_map.mp h.meets).mono fun _ _ hg => ⟨hg.1, trivial, trivial⟩)

/-- They run on a new database. -/
theorem exists_wrote (name : Bytes) {rs : List (Location × Write)}
    (hplaced : Placed opt ⟨1, 0⟩ rs) :
    ∃ s₀ t L, fresh opt name = some s₀ ∧ s₀.db = newDb opt name ∧
      Wrote opt s₀ (fun _ => []) rs t L ∧ Durable opt name t L := by
  obtain ⟨s₀, hs₀, hdb, hidle⟩ := exists_fresh opt name
  have h₀ := Durable.fresh hs₀
  have hend : s₀.db.fileManager.endOfActive = ⟨1, 0⟩ := by
    have hoffset : s₀.db.fileManager.activeOffset = 0 := h₀.inv.sound.holds.write
    rw [FileManager.endOfActive, hoffset, hdb]
    rfl
  obtain ⟨t, L, hwrote, ht⟩ := h₀.exists_writes hidle (hend ▸ hplaced)
  exact ⟨s₀, t, L, hs₀, hdb, hwrote, ht⟩

end

open scoped Reference

@[simp] theorem size_entryOf (w : Write) : (DBImpl.entryOf Reference.options w).size =
    14 + w.key.length + w.value.length := rfl

/-- Two puts, of which the second one seals the file of the first. -/
def sealing (value : Bytes) : List (Location × Write) :=
  [(⟨1, 0⟩, .put [107] value), (⟨2, 0⟩, .put [108] [1])]

theorem placed_sealing {value : Bytes} (hlen : value.length = kMaxFileBytes - 16) :
    Placed Reference.options ⟨1, 0⟩ (sealing value) := by
  have hbytes : kMaxFileBytes = 134217728 := rfl
  simp [sealing, Placed, Location.place, Write.put, hlen, hbytes]

/-- Before file 1 is sealed it gets records of each kind: one that is overwritten, one that is
deleted, the tombstone, and three live ones. -/
def mixing (value : Bytes) : List (Location × Write) :=
  [(⟨1, 0⟩, .put [107] [1]), (⟨1, 16⟩, .put [108] [2]), (⟨1, 32⟩, .delete [108]),
    (⟨1, 47⟩, .put [107] [3]), (⟨1, 63⟩, .put [109] [4]), (⟨1, 79⟩, .put [110] value),
    (⟨2, 0⟩, .put [111] [5])]

theorem placed_mixing {value : Bytes} (hlen : value.length = kMaxFileBytes - 95) :
    Placed Reference.options ⟨1, 0⟩ (mixing value) := by
  have hbytes : kMaxFileBytes = 134217728 := rfl
  simp [mixing, Placed, Location.place, Write.put, Write.delete, hlen, hbytes]

/-- Values of these lengths, of which the first byte is known. -/
theorem exists_value (n : ℕ) : ∃ rest : Bytes, ((1 : UInt8) :: rest).length = n + 1 :=
  ⟨List.replicate n 1, by rw [List.length_cons, List.length_replicate]⟩

end Session
end PedroDB
