import PedroDB.Sound

/-!
# What a run of `Compact(id)` has done so far

The scan goes over the records of its file in order and leaves no live record behind
it: a record is dead when it is checked, or its key is moved to a copy. A location is
live if an index entry has it, or if a write in flight will still publish it.

## Main definitions

* `DBImpl.Live` — a live location, given those that writes in flight will publish
* `DBImpl.Passed` — no location in front of an offset is live
* `Compaction.Scans` — what holds between two atomic blocks of the run

## Main results

* `Compaction.Scans.mono` — what the rest of the system may do meanwhile
* `Compaction.Scans.scan`, `check`, `append`, `install` — one lemma for each block
* `DBImpl.compactScan_cases`, `compactCheck_cases` — what a block leads to
-/

namespace PedroDB

open Framing

variable [Platform]

namespace DBImpl

/-- The location is in the index, or a write in flight will put it there. -/
def Live (db : DBImpl) (pend : Location → Prop) (loc : Location) : Prop :=
  (∃ key dir, db.find key = some dir ∧ dir.loc = loc) ∨ pend loc

/-- No location of file `id` in front of offset `o` is live. -/
def Passed (db : DBImpl) (pend : Location → Prop) (id o : ℕ) : Prop :=
  ∀ loc, db.Live pend loc → loc.id = id → o ≤ loc.offset

variable {db : DBImpl} {pend : Location → Prop} {L : Log} {id : ℕ} {e : Entry}
  {pre post : List Entry}

/-- Live locations are those of set records. -/
theorem Sound.live_located (h : db.Sound L)
    (hpend : ∀ loc, pend loc → ∃ e, Located L loc e ∧ e.type = .kSet) :
    ∀ loc, db.Live pend loc → ∃ e, Located L loc e ∧ e.type = .kSet := by
  rintro loc (⟨key, dir, hfind, rfl⟩ | hloc)
  · obtain ⟨e, hloc, -, htype, -⟩ := h.pointed key dir hfind
    exact ⟨e, hloc, htype⟩
  · exact hpend loc hloc

omit [Platform] in
/-- Past one more record, if that record is not live. -/
theorem Passed.next (h : db.Passed pend id (totalSize pre)) (hL : L id = pre ++ e :: post)
    (hlive : ∀ loc, db.Live pend loc → ∃ e, Located L loc e ∧ e.type = .kSet)
    (hdead : ¬ db.Live pend ⟨id, totalSize pre⟩) :
    db.Passed pend id (totalSize (pre ++ [e])) := by
  intro loc hloc hid
  have hge := h loc hloc hid
  obtain ⟨x, hx, -⟩ := hlive loc hloc
  rw [Located, hid, hL] at hx
  rw [totalSize_concat]
  refine (RecordAt.next_cases hx hge).resolve_left ?_
  rintro ⟨hoff, -⟩
  have hloc' : loc = ⟨id, totalSize pre⟩ := Location.ext hid hoff
  exact hdead (hloc' ▸ hloc)

end DBImpl

/-! ### Single blocks -/

namespace DBImpl

/-- One round of the scan moves the iterator behind the record that it has read. -/
theorem compactScan_cases (id : ℕ) (it : RecordIterator) (buffer : ReadBuffer) (db : DBImpl) :
    (db.compactScan id it buffer).1 = .finish id ∨
      ∃ e it', it'.index = it.index + e.sizeOf ∧
        ((db.compactScan id it buffer).1 = .scan id it' ∨
          ∃ offset, (db.compactScan id it buffer).1 = .check id it' offset e) := by
  have hindex := RecordIterator.valid_index it (db.fileManager.dataFiles id).data buffer
  unfold compactScan
  split
  · exact Or.inl rfl
  · next it' rest hvalid =>
    rw [hvalid] at hindex
    refine Or.inr ⟨it'.entry, it'.next.2, congrArg (· + it'.entry.sizeOf) hindex, ?_⟩
    dsimp only
    split_ifs
    · exact Or.inl rfl
    · exact Or.inr ⟨_, rfl⟩

omit [Platform] in
/-- The liveness check passes a record, or goes on with the one that its key leads to. -/
theorem compactCheck_cases (id : ℕ) (it : RecordIterator) (offset : ℕ) (next : Entry)
    (db : DBImpl) :
    db.compactCheck id it offset next = .scan id it ∨
      ∃ dir, db.find next.key = some dir ∧ dir.loc = ⟨id, offset⟩ ∧
        db.compactCheck id it offset next = .append id it next := by
  unfold compactCheck
  rcases hfind : db.find next.key with _ | dir
  · exact Or.inl rfl
  · dsimp only
    split_ifs with hne
    · exact Or.inl rfl
    · exact Or.inr ⟨dir, rfl, not_not.mp hne, rfl⟩

end DBImpl

/-! ### One round of the scan -/

section Scan

variable {db : DBImpl} {es : List Entry} {buffer : ReadBuffer} {it : RecordIterator} {id o : ℕ}
  {e : Entry} (h : (db.fileManager.dataFiles id).Holds es)

include h

omit h in
/-- Where the iterator finds nothing the scan is over. -/
theorem DBImpl.compactScan_of_invalid
    (hfalse : (it.valid (db.fileManager.dataFiles id).data buffer).1 = false) :
    (db.compactScan id it buffer).1 = .finish id := by
  rcases hvalid : it.valid (db.fileManager.dataFiles id).data buffer with ⟨ok, it', rest⟩
  rw [hvalid] at hfalse
  obtain rfl : ok = false := hfalse
  simp only [DBImpl.compactScan, hvalid]

/-- Behind the last record the scan is over. -/
theorem DataFile.Holds.compactScan_end (hready : it.Ready buffer (totalSize es)) :
    (db.compactScan id it buffer).1 = .finish id :=
  DBImpl.compactScan_of_invalid (h.valid_of_end hready)

/-- So it is in front of a record that ends exactly at the end of the file. -/
theorem DataFile.Holds.compactScan_fills (hready : it.Ready buffer o) (hat : RecordAt es o e)
    (hend : o + e.size = kMaxFileBytes) : (db.compactScan id it buffer).1 = .finish id :=
  DBImpl.compactScan_of_invalid (h.valid_of_fills hready hat hend)

/-- Every other record is passed at once, or checked if it sets its key. -/
theorem DataFile.Holds.compactScan_record (hready : it.Ready buffer o) (hat : RecordAt es o e)
    (hend : o + e.size < kMaxFileBytes) : ∃ it' rest,
      db.compactScan id it buffer =
        (if e.type ≠ .kSet then .scan id it' else .check id it' o e, rest) ∧
      it'.Ready rest (o + e.size) := by
  obtain ⟨rest, hvalid, hready'⟩ := h.valid_of_record hready hat hend
  have hnext := DataFile.Holds.next_eq (h.storable e hat.mem) hready.index (o + e.size)
  have hoff : RecordIterator.getOffset { it with readIndex := o + e.size, entry := e } = o := by
    simp only [RecordIterator.getOffset, hready.index]
    rw [kMaxFileBytes] at hend
    exact u32_of_lt (by omega)
  exact ⟨_, rest, by simp only [DBImpl.compactScan, hvalid, hnext, hoff], hready'⟩

end Scan

namespace Compaction

/-- The run stands behind the records `pre` of its file, and has passed them. -/
structure At (db : DBImpl) (pend : Location → Prop) (L : Log) (buffer : ReadBuffer) (id : ℕ)
    (it : RecordIterator) (pre post : List Entry) : Prop where
  records : L id = pre ++ post
  ready : it.Ready buffer (totalSize pre)
  passed : db.Passed pend id (totalSize pre)

/-- The run is busy with record `next`, behind the records `pre`. -/
structure Busy (db : DBImpl) (pend : Location → Prop) (L : Log) (buffer : ReadBuffer) (id : ℕ)
    (it : RecordIterator) (next : Entry) (pre post : List Entry) : Prop where
  records : L id = pre ++ next :: post
  ready : it.Ready buffer (totalSize (pre ++ [next]))
  passed : db.Passed pend id (totalSize pre)
  type : next.type = .kSet

/-- Where a run of `Compact` stands in the file, and what it has passed. At its end only
a record that ends exactly at the end of the file may be live. -/
def Scans (db : DBImpl) (pend : Location → Prop) (L : Log) (buffer : ReadBuffer) :
    Compaction → Prop
  | .idle => True
  | .start _ => True
  | .mark id => id ∈ db.fileManager.metadata.files
  | .scan id it =>
    id ∈ db.fileManager.metadata.files ∧ ∃ pre post, At db pend L buffer id it pre post
  | .check id it offset next =>
    id ∈ db.fileManager.metadata.files ∧
      ∃ pre post, Busy db pend L buffer id it next pre post ∧ offset = totalSize pre
  | .append id it next =>
    id ∈ db.fileManager.metadata.files ∧
      ∃ pre post, Busy db pend L buffer id it next pre post ∧ ¬ pend ⟨id, totalSize pre⟩
  | .install id it next loc =>
    id ∈ db.fileManager.metadata.files ∧
      ∃ pre post, Busy db pend L buffer id it next pre post ∧ ¬ pend ⟨id, totalSize pre⟩ ∧
        Located L loc next ∧ ⟨id, totalSize pre⟩ < loc ∧ loc.id ∈ db.fileManager.metadata.files
  | .finish id =>
    id ∈ db.fileManager.metadata.files ∧ ∀ loc, db.Live pend loc → loc.id = id →
      ∃ e, Located L loc e ∧ loc.offset + e.size = kMaxFileBytes

variable {db db' : DBImpl} {pend pend' : Location → Prop} {L L' : Log} {buffer : ReadBuffer}
  {id : ℕ} {it : RecordIterator} {next e : Entry} {pre post : List Entry} {loc : Location}
  {c : Compaction}

/-- The rest of the system appends records, and only records behind the end become
live. -/
structure Grows (db : DBImpl) (pend : Location → Prop) (L : Log) (db' : DBImpl)
    (pend' : Location → Prop) (L' : Log) : Prop where
  records : ∀ id, ∃ xs, L' id = L id ++ xs
  live : ∀ loc, db'.Live pend' loc → db.Live pend loc ∨ totalSize (L loc.id) ≤ loc.offset
  pend : ∀ loc, pend' loc → pend loc ∨ totalSize (L loc.id) ≤ loc.offset
  files : db.fileManager.metadata.files ⊆ db'.fileManager.metadata.files

namespace Grows

omit [Platform]

variable (h : Grows db pend L db' pend' L')

include h

theorem passed (hrec : L id = pre ++ post) (hp : db.Passed pend id (totalSize pre)) :
    db'.Passed pend' id (totalSize pre) := by
  intro loc hloc hid
  rcases h.live loc hloc with hold | hnew
  · exact hp loc hold hid
  · rw [hid, hrec, totalSize_append] at hnew
    omega

theorem located (hloc : Located L loc e) : Located L' loc e := by
  obtain ⟨xs, hxs⟩ := h.records loc.id
  rw [Located, hxs]
  exact Framing.At.append hloc xs

theorem at_ (hat : At db pend L buffer id it pre post) :
    ∃ post', At db' pend' L' buffer id it pre post' := by
  obtain ⟨xs, hxs⟩ := h.records id
  exact ⟨post ++ xs, by rw [hxs, hat.records]; simp, hat.ready, h.passed hat.records hat.passed⟩

theorem busy (hb : Busy db pend L buffer id it next pre post) :
    ∃ post', Busy db' pend' L' buffer id it next pre post' := by
  obtain ⟨xs, hxs⟩ := h.records id
  exact ⟨post ++ xs, by rw [hxs, hb.records]; simp, hb.ready, h.passed hb.records hb.passed,
    hb.type⟩

theorem not_pend (hb : Busy db pend L buffer id it next pre post)
    (hno : ¬ pend ⟨id, totalSize pre⟩) : ¬ pend' ⟨id, totalSize pre⟩ := by
  intro hp
  refine (h.pend _ hp).elim hno fun hnew => ?_
  have := next.size_pos
  rw [hb.records, totalSize_append, totalSize_cons] at hnew
  simp only at hnew
  omega

end Grows

namespace Scans

omit [Platform] in
/-- What the rest of the system may do meanwhile. -/
theorem mono (h : c.Scans db pend L buffer) (hg : Grows db pend L db' pend' L')
    (hfinish : ∀ id, c = .finish id → ∀ loc, db'.Live pend' loc → loc.id = id →
      db.Live pend loc) :
    c.Scans db' pend' L' buffer := by
  cases c with
  | idle => exact trivial
  | start id => exact trivial
  -- Only that the file is registered counts before the scan.
  | mark id => exact hg.files h
  | scan id it =>
    obtain ⟨hid, pre, post, hat⟩ := h
    obtain ⟨post', hat'⟩ := hg.at_ hat
    exact ⟨hg.files hid, pre, post', hat'⟩
  | check id it offset next =>
    obtain ⟨hid, pre, post, hb, hoff⟩ := h
    obtain ⟨post', hb'⟩ := hg.busy hb
    exact ⟨hg.files hid, pre, post', hb', hoff⟩
  | append id it next =>
    obtain ⟨hid, pre, post, hb, hno⟩ := h
    obtain ⟨post', hb'⟩ := hg.busy hb
    exact ⟨hg.files hid, pre, post', hb', hg.not_pend hb hno⟩
  | install id it next loc =>
    obtain ⟨hid, pre, post, hb, hno, hloc, hlt, hmem⟩ := h
    obtain ⟨post', hb'⟩ := hg.busy hb
    exact ⟨hg.files hid, pre, post', hb', hg.not_pend hb hno, hg.located hloc, hlt,
      hg.files hmem⟩
  | finish id =>
    -- Nothing new becomes live in the file that is about to be removed.
    obtain ⟨hid, hend⟩ := h
    refine ⟨hg.files hid, fun loc hloc hlid => ?_⟩
    obtain ⟨e, he, hsize⟩ := hend loc (hfinish id rfl loc hloc hlid) hlid
    exact ⟨e, hg.located he, hsize⟩

omit [Platform] in
/-- The beginning of the scan. -/
theorem mark (h : Scans db pend L buffer (.mark id)) :
    Scans (db.compactMark id) pend L buffer (.scan id (RecordIterator.create kMaxFileBytes)) :=
  ⟨h, [], L id, rfl, RecordIterator.ready_create buffer, fun _ _ _ => Nat.zero_le _⟩

/-- One round of the scan. -/
theorem scan (hsound : db.Sound L)
    (hpend : ∀ loc, pend loc → ∃ e, Located L loc e ∧ e.type = .kSet)
    (h : Scans db pend L buffer (.scan id it)) :
    (db.compactScan id it buffer).1.Scans db pend L (db.compactScan id it buffer).2 := by
  obtain ⟨hid, pre, post, hat⟩ := h
  have hlive := hsound.live_located hpend
  have hfile := hsound.holds.files id
  cases post with
  | nil =>
    -- The scan has passed all records of the file.
    have hpre : L id = pre := by rw [hat.records, List.append_nil]
    rw [hfile.compactScan_end (hpre.symm ▸ hat.ready)]
    refine ⟨hid, fun loc hloc hlid => ?_⟩
    obtain ⟨e, he, -⟩ := hlive loc hloc
    have hend := he.end_le
    have hge := hat.passed loc hloc hlid
    have := e.size_pos
    rw [hlid, hpre] at hend
    omega
  | cons e post =>
    have hrec : RecordAt (L id) (totalSize pre) e := hat.records ▸ at_total pre e post
    have hle := hrec.end_le.trans hfile.fits
    rcases Nat.lt_or_ge (totalSize pre + e.size) kMaxFileBytes with hlt | hge
    · obtain ⟨it', rest, hscan, hready⟩ := hfile.compactScan_record hat.ready hrec hlt
      rw [← totalSize_concat] at hready
      rw [hscan]
      split_ifs with htype
      · -- A tombstone is skipped; no live location leads to it.
        refine ⟨hid, pre ++ [e], post, by rw [hat.records]; simp, hready,
          hat.passed.next hat.records hlive ?_⟩
        intro hl
        obtain ⟨x, hx, hset⟩ := hlive _ hl
        exact htype (RecordAt.unique hrec hx ▸ hset)
      · -- A set record goes to the liveness check.
        exact ⟨hid, pre, post, ⟨hat.records, hready, hat.passed, not_not.mp htype⟩, rfl⟩
    · -- The record fills the file, and the scan ends without having looked at it.
      have hend : totalSize pre + e.size = kMaxFileBytes := Nat.le_antisymm hle hge
      rw [hfile.compactScan_fills hat.ready hrec hend]
      refine ⟨hid, fun loc hloc hlid => ?_⟩
      obtain ⟨x, hx, -⟩ := hlive loc hloc
      refine ⟨x, hx, ?_⟩
      -- A live record stands behind `pre`, and there is only `e`.
      have hge' := hat.passed loc hloc hlid
      have hxend := hx.end_le.trans (hsound.holds.files loc.id).fits
      rw [Located, hlid, hat.records] at hx
      rcases RecordAt.next_cases hx hge' with ⟨hoff, rfl⟩ | hbehind
      · omega
      · have := x.size_pos
        omega

/-- The liveness check, when no write in flight is going to publish the record. -/
theorem check {offset : ℕ} (hsound : db.Sound L)
    (hpend : ∀ loc, pend loc → ∃ e, Located L loc e ∧ e.type = .kSet)
    (h : Scans db pend L buffer (.check id it offset next)) (hno : ¬ pend ⟨id, offset⟩) :
    (db.compactCheck id it offset next).Scans db pend L buffer := by
  obtain ⟨hid, pre, post, hb, rfl⟩ := h
  have hrec : RecordAt (L id) (totalSize pre) next := hb.records ▸ at_total pre next post
  have hscan : (∀ dir, db.find next.key = some dir → dir.loc ≠ ⟨id, totalSize pre⟩) →
      Scans db pend L buffer (.scan id it) := by
    intro hne
    refine ⟨hid, pre ++ [next], post, by rw [hb.records]; simp, hb.ready,
      hb.passed.next hb.records (hsound.live_located hpend) ?_⟩
    rintro (⟨key, dir, hfind, hloc⟩ | hp)
    · obtain ⟨e, he, hkey, -⟩ := hsound.pointed key dir hfind
      rw [hloc] at he
      have hkey' : next.key = key := by rw [← hkey, RecordAt.unique hrec he]
      exact hne dir (hkey' ▸ hfind) hloc
    · exact hno hp
  unfold DBImpl.compactCheck
  rcases hfind : db.find next.key with _ | dir
  · exact hscan fun dir hdir => by simp [hfind] at hdir
  · dsimp only
    split_ifs with hne
    · exact hscan fun dir' hdir' => by rwa [← Option.some_inj.mp (hfind.symm.trans hdir')]
    · exact ⟨hid, pre, post, hb, hno⟩

/-- The copy is appended. -/
theorem append (hsound : db.Sound L) (h : Scans db pend L buffer (.append id it next))
    (hwrap : ¬ db.fileManager.Wraps next) :
    db.fileManager.append .sound next =
        some (.kOk, db.fileManager.nextLoc next, db.fileManager.appended next) ∧
      Scans { db with fileManager := db.fileManager.appended next } pend
        (L.add (db.fileManager.nextLoc next).id next) buffer
        (.install id it next (db.fileManager.nextLoc next)) ∧
      ({ db with fileManager := db.fileManager.appended next } : DBImpl).Sound
        (L.add (db.fileManager.nextLoc next).id next) := by
  obtain ⟨hid, pre, post, hb, hno⟩ := h
  have hrec : RecordAt (L id) (totalSize pre) next := hb.records ▸ at_total pre next post
  have hs := (hsound.holds.files id).storable next hrec.mem
  have hsound' := hsound.appended hs hwrap
  -- The append changes neither the index nor what the scan has passed.
  have hg : Grows db pend L { db with fileManager := db.fileManager.appended next } pend
      (L.add (db.fileManager.nextLoc next).id next) :=
    { records := Log.add_grows
      live := fun _ hl => Or.inl hl
      pend := fun _ hp => Or.inl hp
      files := FileManager.files_subset_appended }
  obtain ⟨post', hb'⟩ := hg.busy hb
  have hloc : db.fileManager.nextLoc next = L.endOf (db.fileManager.nextLoc next).id :=
    hsound.holds.nextLoc_eq
  have hactive : id ≤ (db.fileManager.nextLoc next).id := by
    rw [FileManager.nextLoc_id]
    exact (hsound.registered.le_active id hid).trans FileManager.activeFileId_le_appended
  refine ⟨hsound.holds.append_eq hs hwrap, ⟨hg.files hid, pre, post', hb', hno, ?_, ?_, ?_⟩,
    hsound'⟩
  · rw [hloc]
    exact located_endOf L (db.fileManager.nextLoc next).id next
  · -- The copy goes behind everything, so behind the record itself.
    rw [hloc]
    exact (show Located L ⟨id, totalSize pre⟩ next from hrec).lt_endOf hactive
  · rw [FileManager.nextLoc_id]
    exact hsound'.registered.active

/-- The copy is installed, unless the index has gone past it. -/
theorem install (hsound : db.Sound L)
    (hpend : ∀ loc, pend loc → ∃ e, Located L loc e ∧ e.type = .kSet)
    (h : Scans db pend L buffer (.install id it next loc)) :
    Scans (db.compactInstall next loc) pend L buffer (.scan id it) := by
  obtain ⟨hid, pre, post, hb, hno, hloc, hlt, -⟩ := h
  have hrec : RecordAt (L id) (totalSize pre) next := hb.records ▸ at_total pre next post
  -- The copy is the only location that becomes live.
  have hlive' : ∀ l, (db.compactInstall next loc).Live pend l → db.Live pend l ∨ l = loc := by
    rintro l (⟨key, dir, hfind, rfl⟩ | hp)
    · rw [DBImpl.find_compactInstall] at hfind
      split_ifs at hfind
      · exact Or.inr (Option.some_inj.mp hfind ▸ rfl)
      · exact Or.inl (Or.inl ⟨key, dir, hfind, rfl⟩)
    · exact Or.inl (Or.inr hp)
  have hlocated : ∀ l, (db.compactInstall next loc).Live pend l →
      ∃ e, Located L l e ∧ e.type = .kSet := by
    intro l hl
    rcases hlive' l hl with hl | rfl
    · exact hsound.live_located hpend l hl
    · exact ⟨next, hloc, hb.type⟩
  -- The copy lies behind the scan, so what is live in front of it was live before.
  have hpassed : (db.compactInstall next loc).Passed pend id (totalSize pre) := by
    intro l hl hlid
    rcases hlive' l hl with hl | rfl
    · exact hb.passed l hl hlid
    · rw [Location.lt_iff] at hlt
      simp only at hlt
      omega
  have hrecords : L id = pre ++ [next] ++ post := by rw [hb.records, List.append_assoc]; rfl
  refine ⟨by rw [DBImpl.compactInstall_fileManager]; exact hid, pre ++ [next], post, hrecords,
    hb.ready, hpassed.next hb.records hlocated ?_⟩
  -- The record itself is not live any more: the index leads to the copy.
  rintro (⟨key, dir, hfind, hdir⟩ | hp)
  · rw [DBImpl.find_compactInstall] at hfind
    split_ifs at hfind with hcond
    · rw [← Option.some_inj.mp hfind] at hdir
      rw [← show loc = ⟨id, totalSize pre⟩ from hdir] at hlt
      exact Location.lt_irrefl loc hlt
    · obtain ⟨e, he, hkey, -⟩ := hsound.pointed key dir hfind
      rw [hdir] at he
      have hkey' : key = next.key := by rw [← hkey, RecordAt.unique hrec he]
      exact hcond ⟨hkey', dir, hfind, hdir ▸ hlt⟩
  · exact hno hp

end Scans

end Compaction
end PedroDB
