import PedroDB.FileStates
import PedroDB.WriteRuns

/-!
# Compacting one file

A run of `Compact(id)` copies the live records of its file, in the order of their offsets,
and re-points their keys, as long as it does not append to the very file it scans and no
live record ends exactly at the end of the file.

## Main definitions

* `Session.liveRecords` — the records that the index points at
* `Session.Copied` — what copying them does to log and index
* `Session.Apart` — the run does not append to the file it scans
* `Session.Unwrapped` — no append of the run wraps the file id

## Main results

* `Session.exists_scanned` — the loop of `Compact(id)`
* `Session.compact_eq` — the whole run
* `Session.exists_copied_twice` — a record of the active file is copied again and again
-/

namespace PedroDB.Session

open Transition Framing

section

variable [Platform] {opt : Options} {name : Bytes} {as : List Action} {s s' : Session}
  {L L' : Log} {id : ℕ} {it : RecordIterator} {e : Entry} {pre post : List Entry}
  {ok : FileManager → Entry → Prop}

/-! ### The blocks of a run, one after another -/

theorem block_start {c : Compaction} {db : DBImpl} (hc : s.compaction = .start id)
    (hstart : s.db.compactStart id = (c, db)) :
    step opt s .block = some { s with db, compaction := c } := by
  simp only [step, compactBlock, hc, DBImpl.compactStep, hstart, Option.map_some]

theorem block_scan (hc : s.compaction = .scan id it) : step opt s .block =
    some { s with
      compaction := (s.db.compactScan id it s.buffer).1
      buffer := (s.db.compactScan id it s.buffer).2 } := by
  simp only [step, compactBlock, hc, DBImpl.compactStep, Option.map_some]

theorem block_check {offset : ℕ} (hc : s.compaction = .check id it offset e) :
    step opt s .block = some { s with compaction := s.db.compactCheck id it offset e } := by
  simp only [step, compactBlock, hc, DBImpl.compactStep, Option.map_some]

theorem block_append {loc : Location} {fm : FileManager} (hc : s.compaction = .append id it e)
    (happend : s.db.fileManager.append .sound e = some (.kOk, loc, fm)) :
    step opt s .block =
      some { s with db := { s.db with fileManager := fm }, compaction := .install id it e loc } := by
  simp only [step, compactBlock, hc, DBImpl.compactStep, happend, Option.map_some]

theorem block_install {loc : Location} (hc : s.compaction = .install id it e loc) :
    step opt s .block =
      some { s with db := s.db.compactInstall e loc, compaction := .scan id it } := by
  simp only [step, compactBlock, hc, DBImpl.compactStep, Option.map_some]

theorem block_mark (hc : s.compaction = .mark id) : step opt s .block =
    some { s with
      db := s.db.compactMark id
      compaction := .scan id (RecordIterator.create kMaxFileBytes) } := by
  simp only [step, compactBlock, hc, DBImpl.compactStep, Option.map_some]

theorem block_finish (hc : s.compaction = .finish id) : step opt s .block =
    some { s with db := s.db.compactFinish id, compaction := .idle } := by
  simp only [step, compactBlock, hc, DBImpl.compactStep, Option.map_some]

/-- `Compact()` is called when one file waits for it, and begins with that file. -/
theorem exists_started (opt : Options) (hidle : s.Quiescent) (htasks : s.db.compactTasks = [id]) :
    ∃ t, Run (step opt) s [.compact, .block] t ∧
      Meets (step opt) (fun u a => Maintained opt u a ∧ Roomy opt u (.act a)) s
        [.compact, .block] ∧
      t.compaction = .start id ∧ t.queue = [] ∧ t.db = s.db.pollCompactTask.2 := by
  have hpoll : s.db.pollCompactTask.1.mergeSort (· ≤ ·) = [id] := by
    simp [DBImpl.pollCompactTask, htasks]
  have hcompact : step opt s .compact =
      some { s with queue := [id], db := s.db.pollCompactTask.2 } := by
    rw [step, if_pos hidle, hpoll]
  have hblock : step opt { s with queue := [id], db := s.db.pollCompactTask.2 } .block =
      some { s with queue := [], db := s.db.pollCompactTask.2, compaction := .start id } := by
    simp only [step, compactBlock, hidle.2]
  refine ⟨_, run_cons.mpr ⟨_, hcompact, run_cons.mpr ⟨_, hblock, run_nil.mpr rfl⟩⟩, ?_, rfl, rfl,
    rfl⟩
  refine meets_cons.mpr ⟨⟨⟨trivial, trivial⟩, trivial, trivial⟩, fun t ht =>
    meets_cons.mpr ⟨?_, fun _ _ => meets_nil⟩⟩
  obtain rfl := Option.some_inj.mp (hcompact.symm.trans ht)
  simp only [Maintained, Roomy, EndsInside, Within, Removal, hidle.2, and_self]

/-- The record that the next block appends, if it appends one, meets the condition `ok`. -/
def Appending (ok : FileManager → Entry → Prop) (s : Session) (_ : Action) : Prop :=
  ∀ id it next, s.compaction = .append id it next → ok s.db.fileManager next

/-- This many blocks run from `s` to `t`, and what they append meets the condition `ok`. -/
def Blocks (opt : Options) (ok : FileManager → Entry → Prop) (s : Session) (n : ℕ) (t : Session) :
    Prop :=
  Run (step opt) s (List.replicate n .block) t ∧
    Meets (step opt) (Appending ok) s (List.replicate n .block)

theorem Blocks.nil : Blocks opt ok s 0 s :=
  ⟨run_nil.mpr rfl, meets_nil⟩

theorem Blocks.cons {t u : Session} {n : ℕ} (hstep : step opt s .block = some t)
    (hok : Appending ok s .block) (h : Blocks opt ok t n u) : Blocks opt ok s (n + 1) u := by
  refine ⟨run_cons.mpr ⟨t, hstep, h.1⟩, meets_cons.mpr ⟨hok, fun v hv => ?_⟩⟩
  obtain rfl := Option.some_inj.mp (hstep.symm.trans hv)
  exact h.2

/-- A block that appends nothing, and then more of them. -/
theorem Blocks.quiet {t u : Session} {n : ℕ} (hstep : step opt s .block = some t)
    (hquiet : ∀ id it next, s.compaction ≠ .append id it next) (h : Blocks opt ok t n u) :
    Blocks opt ok s (n + 1) u :=
  h.cons hstep fun id it next hc => absurd hc (hquiet id it next)

theorem Blocks.trans {t u : Session} {m n : ℕ} (h : Blocks opt ok s m t)
    (h' : Blocks opt ok t n u) : Blocks opt ok s (m + n) u := by
  refine ⟨?_, ?_⟩
  · rw [List.replicate_add]
    exact run_append.mpr ⟨t, h.1, h'.1⟩
  · rw [List.replicate_add]
    exact h.2.append h.1 h'.2

/-! ### What is copied -/

/-- The records that the index points at. -/
def liveRecords (db : DBImpl) (rs : List (Location × Entry)) : List (Location × Entry) :=
  rs.filter fun r => (db.find r.2.key).map Dir.loc = some r.1

/-- The records of file `id` from offset `o` on, with their locations. -/
def recordsFrom (id o : ℕ) (es : List Entry) : List (Location × Entry) :=
  (framesFrom Entry.size o es).map (locate id)

omit [Platform] in
theorem recordsFrom_cons (id o : ℕ) (e : Entry) (es : List Entry) :
    recordsFrom id o (e :: es) = (⟨id, o⟩, e) :: recordsFrom id (o + e.size) es := rfl

omit [Platform] in
theorem mem_recordsFrom {o : ℕ} {es : List Entry} {r : Location × Entry}
    (hr : r ∈ recordsFrom id o es) : r.1.id = id ∧ o ≤ r.1.offset := by
  obtain ⟨hid, hmem⟩ := mem_locate_iff.mp hr
  obtain ⟨o', -, ho⟩ := mem_framesFrom_iff.mp hmem
  exact ⟨hid, by omega⟩

/-- Live records were copied: they were appended one after another, and nothing else was;
the index leads to the copies, and all other keys have their old entries. -/
structure Copied (s s' : Session) (L L' : Log) (id : ℕ) (live copies : List (Location × Entry)) :
    Prop where
  entries : copies.map Prod.snd = live.map Prod.snd
  log : L' = copies.foldl (fun L c => L.add c.1.id c.2) L
  moved : ∀ c ∈ copies, Located L' c.1 c.2 ∧ c.1.id ≠ id ∧
    s'.db.find c.2.key = some { entry_size := c.2.size, loc := c.1 }
  kept : ∀ key, (∀ r ∈ live, r.2.key ≠ key) → s'.db.find key = s.db.find key

/-- The run does not append to the file it scans: that file is sealed, or the first of the
live records does not fit into it. -/
def Apart (fm : FileManager) (id : ℕ) (live : List (Location × Entry)) : Prop :=
  id < fm.activeFileId ∨ ∀ r ∈ live.head?, ¬ fm.Fits r.2

/-- So the copy of the first record goes into a later file. -/
theorem Apart.lt_nextLoc {fm : FileManager} {r : Location × Entry}
    {live : List (Location × Entry)} (h : Apart fm id (r :: live)) (hactive : id ≤ fm.activeFileId) :
    id < (fm.nextLoc r.2).id := by
  rw [FileManager.nextLoc_id]
  rcases h with hlt | hfull
  · exact hlt.trans_le FileManager.activeFileId_le_appended
  · rw [FileManager.appended, if_neg (hfull r rfl)]
    exact Nat.lt_succ_of_le hactive

/-- Each of these records meets the condition `ok` when it is appended, in this order. -/
def Along (ok : FileManager → Entry → Prop) (fm : FileManager) : List (Location × Entry) → Prop
  | [] => True
  | r :: rs => ok fm r.2 ∧ Along ok (fm.appended r.2) rs

/-- None of these records, appended in this order, needs a file id of more than 32 bits. -/
def Unwrapped : FileManager → List (Location × Entry) → Prop := Along fun fm e => ¬ fm.Wraps e

/-- As many unused file ids as records are enough. -/
theorem unwrapped_of_lt {fm : FileManager} {rs : List (Location × Entry)}
    (h : fm.activeFileId + rs.length < 2 ^ 32) : Unwrapped fm rs := by
  induction rs generalizing fm with
  | nil => trivial
  | cons r rs ih =>
    rw [List.length_cons] at h
    have hle := fm.appended_activeFileId_le r.2
    refine ⟨fun hwrap => ?_, ih (by omega)⟩
    have := hwrap.2
    omega

/-- The open files do not matter to a condition that does not look at them. -/
theorem Along.openFiles {fm : FileManager} {rs : List (Location × Entry)} (o : LRUCache ℕ Unit)
    (hok : ∀ fm e, ok fm e → ok { fm with openFiles := o } e) (h : Along ok fm rs) :
    Along ok { fm with openFiles := o } rs := by
  induction rs generalizing fm with
  | nil => trivial
  | cons r rs ih =>
    have happended : ({ fm with openFiles := o } : FileManager).appended r.2 =
        { fm.appended r.2 with openFiles := o } := by
      unfold FileManager.appended
      by_cases hfits : fm.Fits r.2
      · rw [if_pos hfits]
        exact if_pos hfits
      · rw [if_neg hfits]
        exact if_neg hfits
    exact ⟨hok _ _ h.1, happended ▸ ih h.2⟩

/-- The record in front of the scan is live exactly if the index entry of its key is about
its location. -/
theorem Inv.liveAtEnd (h : Inv opt s L) (hrec : L id = pre ++ e :: post)
    (hlive : (s.db.find e.key).map Dir.loc = some ⟨id, totalSize pre⟩) :
    e.type = .kSet ∧ ∃ dir, s.db.find e.key = some dir ∧ dir.loc = ⟨id, totalSize pre⟩ ∧
      dir.entry_size = e.size := by
  obtain ⟨dir, hfind, hloc⟩ := Option.map_eq_some_iff.mp hlive
  obtain ⟨x, hx, -, htype, hsize⟩ := h.sound.pointed e.key dir hfind
  rw [hloc, Located, hrec] at hx
  obtain rfl := RecordAt.unique (at_total pre e post) hx
  exact ⟨htype, dir, hfind, hloc, hsize⟩

omit [Platform] in
theorem Copied.grows {live copies : List (Location × Entry)} {loc : Location} {x : Entry}
    (h : Copied s s' L L' id live copies) (hloc : Located L loc x) : Located L' loc x := by
  rw [h.log]
  clear h
  induction copies generalizing L with
  | nil => exact hloc
  | cons c copies ih => exact ih (hloc.add _ _)

omit [Platform] in
/-- Copying one more record, in front of others. -/
theorem Copied.cons {t : Session} {loc : Location} {o : ℕ} {live copies : List (Location × Entry)}
    (h : Copied t s' (L.add loc.id e) L' id live copies) (hloc : Located (L.add loc.id e) loc e)
    (hid : loc.id ≠ id)
    (hfind : ∀ key, t.db.find key = if key = e.key then
      some { entry_size := e.size, loc } else s.db.find key)
    (hlive : ∀ r ∈ live, r.2.key ≠ e.key) :
    Copied s s' L L' id ((⟨id, o⟩, e) :: live) ((loc, e) :: copies) where
  entries := by simp [h.entries]
  log := h.log
  moved := by
    intro c hc
    rcases List.mem_cons.mp hc with rfl | hc
    · refine ⟨h.grows hloc, hid, ?_⟩
      rw [h.kept e.key hlive, hfind, if_pos rfl]
    · exact h.moved c hc
  kept := by
    intro key hkey
    have hne : key ≠ e.key := fun heq => hkey _ List.mem_cons_self heq.symm
    rw [h.kept key fun r hr => hkey r (List.mem_cons_of_mem _ hr), hfind, if_neg hne]

/-! ### The loop -/

theorem Inv.scan_next {c : Compaction} {rest : ReadBuffer} (h : Inv opt s L)
    (hc : s.compaction = .scan id it) (hscan : s.db.compactScan id it s.buffer = (c, rest)) :
    Session.step opt s .block = some { s with compaction := c, buffer := rest } ∧
      Inv opt { s with compaction := c, buffer := rest } L := by
  have hscans := h.scans
  rw [hc] at hscans
  have hnext := Compaction.Scans.scan h.sound (by simp) hscans
  rw [hscan] at hnext
  refine ⟨?_, h.sound, h.written, hnext⟩
  rw [block_scan hc, hscan]

theorem Inv.check_next {offset : ℕ} (h : Inv opt s L)
    (hc : s.compaction = .check id it offset e) :
    Session.step opt s .block = some { s with compaction := s.db.compactCheck id it offset e } ∧
      Inv opt { s with compaction := s.db.compactCheck id it offset e } L := by
  have hscans := h.scans
  rw [hc] at hscans
  exact ⟨block_check hc, h.sound, h.written,
    Compaction.Scans.check h.sound (by simp) hscans not_false⟩

/-- A live record is copied: its copy is appended, and then installed. -/
theorem Inv.copy_next {dir : Dir} (h : Inv opt s L) (hc : s.compaction = .append id it e)
    (hfind : s.db.find e.key = some dir) (hloc : Located L dir.loc e)
    (hwrap : ¬ s.db.fileManager.Wraps e) (hok : ok s.db.fileManager e) :
    ∃ t, Blocks opt ok s 2 t ∧ t.compaction = .scan id it ∧
      t.buffer = s.buffer ∧ t.queue = s.queue ∧ t.db.fileManager = s.db.fileManager.appended e ∧
      Inv opt t (L.add (s.nextLoc e).id e) ∧
      ∀ key, t.db.find key = if key = e.key then
        some { entry_size := e.size, loc := s.nextLoc e } else s.db.find key := by
  have hscans := h.scans
  rw [hc] at hscans
  have hs := h.sound.storable hloc
  obtain ⟨happend, hscans', hsound'⟩ := hscans.append h.sound hwrap
  have hfields := hscans'
  obtain ⟨-, _, _, hb, -, hcopy, -, hfile⟩ := hfields
  have hlt : dir.loc < s.nextLoc e :=
    lt_nextLoc h.sound (h.sound.kept e.key dir hfind) hloc
  -- The record that the index points at is still the one that was checked.
  have hinstall : (s.appended e).compactInstall e (s.nextLoc e) =
      { s.appended e with
        indices := s.db.indices.insert e.key { entry_size := e.sizeOf, loc := s.nextLoc e } } :=
    DBImpl.compactInstall_of_lt hfind hlt
  refine ⟨_, Blocks.cons (block_append hc happend) ?_
    (Blocks.quiet (block_install rfl) (by simp) Blocks.nil),
    rfl, rfl, rfl, ?_, ⟨hsound'.compactInstall hcopy hb.type hfile, h.written.add ?_,
      hscans'.install hsound' (by simp)⟩, fun key => ?_⟩
  · intro id' it' next hc'
    obtain ⟨rfl, rfl, rfl⟩ := Compaction.append.inj (hc.symm.trans hc')
    exact hok
  · exact congrArg DBImpl.fileManager hinstall
  · exact h.written _ e hloc.mem
  · refine (congrArg (fun db => DBImpl.find db key) hinstall).trans ?_
    rw [hs.sizeOf_eq]
    exact DBImpl.find_insert

/-- Blocks run to the end of the scan, and copy the records `live`. -/
def Scanned (opt : Options) (ok : FileManager → Entry → Prop) (s : Session) (L : Log) (id : ℕ)
    (live : List (Location × Entry)) : Prop :=
  ∃ n t L' copies, Blocks opt ok s n t ∧ t.compaction = .finish id ∧
    t.queue = s.queue ∧ Inv opt t L' ∧ Copied s t L L' id live copies

/-- More blocks in front, which leave the database as it is. -/
theorem Scanned.after {t : Session} {n : ℕ} {live : List (Location × Entry)}
    (hrun : Blocks opt ok s n t) (hdb : t.db = s.db) (hqueue : t.queue = s.queue)
    (h : Scanned opt ok t L id live) : Scanned opt ok s L id live := by
  obtain ⟨m, u, L', copies, hrun', hc, hqueue', hinv, hcopied⟩ := h
  refine ⟨n + m, u, L', copies, hrun.trans hrun', hc, hqueue'.trans hqueue, hinv, ?_⟩
  exact ⟨hcopied.entries, hcopied.log, hcopied.moved, hdb ▸ hcopied.kept⟩

/-- The end of the scan, when there is no live record left. -/
theorem Inv.scanned_nil (h : Inv opt s L) (hc : s.compaction = .scan id it)
    (hfinish : (s.db.compactScan id it s.buffer).1 = .finish id) : Scanned opt ok s L id [] := by
  rcases hscan : s.db.compactScan id it s.buffer with ⟨c, rest⟩
  rw [hscan] at hfinish
  obtain ⟨hstep, hinv⟩ := h.scan_next hc hscan
  exact ⟨1, _, L, [], .quiet hstep (by simp [hc]) .nil, hfinish, rfl, hinv, rfl, rfl, by simp,
    fun _ _ => rfl⟩

omit [Platform] in
theorem liveRecords_cons {db : DBImpl} {r : Location × Entry} {rs : List (Location × Entry)} :
    liveRecords db (r :: rs) =
      if (db.find r.2.key).map Dir.loc = some r.1 then r :: liveRecords db rs
      else liveRecords db rs := by
  simp only [liveRecords, List.filter_cons, decide_eq_true_eq]

omit [Platform] in
theorem mem_liveRecords {db : DBImpl} {rs : List (Location × Entry)} {r : Location × Entry} :
    r ∈ liveRecords db rs ↔ r ∈ rs ∧ (db.find r.2.key).map Dir.loc = some r.1 := by
  simp only [liveRecords, List.mem_filter, decide_eq_true_eq]

omit [Platform] in
/-- The live records behind a record that was moved to another file are live as before. -/
theorem liveRecords_moved {db db' : DBImpl} {o : ℕ} {es : List Entry} {dir : Dir}
    (hdir : dir.loc.id ≠ id) (hold : (db.find e.key).map Dir.loc = some ⟨id, o⟩)
    (hfind : ∀ key, db'.find key = if key = e.key then some dir else db.find key) :
    liveRecords db' (recordsFrom id (o + e.size) es) =
      liveRecords db (recordsFrom id (o + e.size) es) := by
  refine List.filter_congr fun r hr => decide_eq_decide.mpr ?_
  obtain ⟨hid, ho⟩ := mem_recordsFrom hr
  have := e.size_pos
  rw [hfind]
  split_ifs with hkey
  · -- Neither the copy nor the record that was copied is behind that record.
    rw [hkey, hold, Option.map_some, Option.some_inj, Option.some_inj]
    refine iff_of_false (fun heq => hdir (heq ▸ hid)) fun heq => ?_
    rw [← heq] at ho
    dsimp only at ho
    omega
  · rfl

omit [Platform] in
/-- A live record is the only one of its key. -/
theorem key_ne_of_live {db : DBImpl} {o : ℕ} {es : List Entry}
    (hold : (db.find e.key).map Dir.loc = some ⟨id, o⟩) :
    ∀ r ∈ liveRecords db (recordsFrom id (o + e.size) es), r.2.key ≠ e.key := by
  intro r hr hkey
  obtain ⟨hmem, hlive⟩ := mem_liveRecords.mp hr
  obtain ⟨-, ho⟩ := mem_recordsFrom hmem
  have := e.size_pos
  rw [hkey, hold, Option.some_inj] at hlive
  rw [← hlive] at ho
  dsimp only at ho
  omega

omit [Platform] in
/-- A copy in another file is no live record at the end of this one. -/
theorem not_liveAtEnd_of_moved {db db' : DBImpl} {dir : Dir} (hdir : dir.loc.id ≠ id)
    (hfind : ∀ key, db'.find key = if key = e.key then some dir else db.find key)
    (hend : ¬ LiveAtEnd db id) : ¬ LiveAtEnd db' id := by
  rintro ⟨key, dir', hfind', hid, hlast⟩
  rw [hfind] at hfind'
  split_ifs at hfind'
  · exact hdir (Option.some_inj.mp hfind' ▸ hid)
  · exact hend ⟨key, dir', hfind', hid, hlast⟩

/-- The blocks that copy a live record, in front of those that copy the records behind it. -/
theorem Scanned.copy {t u : Session} {o : ℕ} {es : List Entry} (hinv : Inv opt t L)
    (hrun : Blocks opt ok t 2 u) (hqueue : u.queue = t.queue)
    (hnext : id < (t.nextLoc e).id) (hlive : (t.db.find e.key).map Dir.loc = some ⟨id, o⟩)
    (hfind : ∀ key, u.db.find key = if key = e.key then
      some { entry_size := e.size, loc := t.nextLoc e } else t.db.find key)
    (h : Scanned opt ok u (L.add (t.nextLoc e).id e) id
      (liveRecords t.db (recordsFrom id (o + e.size) es))) :
    Scanned opt ok t L id ((⟨id, o⟩, e) :: liveRecords t.db (recordsFrom id (o + e.size) es)) := by
  obtain ⟨m, v, L', copies, hrun', hc, hqueue', hinv', hcopied⟩ := h
  have hcopy : Located (L.add (t.nextLoc e).id e) (t.nextLoc e) e := by
    have := located_endOf L (t.nextLoc e).id e
    rwa [← hinv.sound.holds.nextLoc_eq] at this
  exact ⟨2 + m, v, L', _, hrun.trans hrun', hc, hqueue'.trans hqueue, hinv',
    hcopied.cons hcopy hnext.ne' hfind (key_ne_of_live hlive)⟩

/-- A record that fills the file is the last one. -/
theorem eq_nil_of_fills {f : DataFile} {pre post : List Entry}
    (hfile : f.Holds (pre ++ [e] ++ post)) (hge : kMaxFileBytes ≤ totalSize pre + e.size) :
    post = [] := by
  have hfits := hfile.fits
  rw [totalSize_append, totalSize_concat] at hfits
  cases post with
  | nil => rfl
  | cons x post =>
    have := x.size_pos
    rw [totalSize_cons] at hfits
    omega

/-- The scan passes one record, and checks whether it is live if it is a set record. -/
theorem Inv.pass (h : Inv opt s L) (hc : s.compaction = .scan id it)
    (hrec : L id = pre ++ e :: post) (hready : it.Ready s.buffer (totalSize pre))
    (hlt : totalSize pre + e.size < kMaxFileBytes) :
    ∃ n t it', Blocks opt ok s n t ∧ t.db = s.db ∧
      t.queue = s.queue ∧ Inv opt t L ∧ it'.Ready t.buffer (totalSize (pre ++ [e])) ∧
      t.compaction = if (s.db.find e.key).map Dir.loc = some ⟨id, totalSize pre⟩
        then .append id it' e else .scan id it' := by
  have hat : RecordAt (L id) (totalSize pre) e := hrec ▸ at_total pre e post
  obtain ⟨it', rest, hscan, hready'⟩ := (h.sound.holds.files id).compactScan_record hready hat hlt
  rw [← totalSize_concat] at hready'
  obtain ⟨hstep, hinv⟩ := h.scan_next hc hscan
  -- A set record goes on to the liveness check.
  by_cases htype : e.type = .kSet
  · rw [if_neg (not_not.mpr htype)] at hstep hinv
    obtain ⟨hstep', hinv'⟩ := hinv.check_next rfl
    refine ⟨2, _, it', .quiet hstep (by simp [hc]) (.quiet hstep' (by simp) .nil), rfl, rfl,
      hinv', hready', ?_⟩
    dsimp only [DBImpl.compactCheck]
    cases hfind : s.db.find e.key with
    | none => simp
    | some dir =>
      dsimp only [Option.map_some]
      by_cases hdir : dir.loc = ⟨id, totalSize pre⟩
      · simp [hdir]
      · simp [hdir]
  · -- A tombstone is passed at once, and is not live.
    have hdead : (s.db.find e.key).map Dir.loc ≠ some ⟨id, totalSize pre⟩ :=
      fun hlive => htype (h.liveAtEnd hrec hlive).1
    rw [if_pos htype] at hstep hinv
    refine ⟨1, _, it', .quiet hstep (by simp [hc]) .nil, rfl, rfl, hinv, hready', ?_⟩
    rw [if_neg hdead]

/-- The loop of `Compact(id)` copies the live records that are still in front of it. -/
theorem Inv.exists_scanned (h : Inv opt s L) (hc : s.compaction = .scan id it)
    (hrec : L id = pre ++ post) (hready : it.Ready s.buffer (totalSize pre))
    (hactive : id ≤ s.db.fileManager.activeFileId) (hend : ¬ LiveAtEnd s.db id)
    (hapart : Apart s.db.fileManager id (liveRecords s.db (recordsFrom id (totalSize pre) post)))
    (hok : ∀ fm e, ok fm e → ¬ fm.Wraps e)
    (hroom : Along ok s.db.fileManager
      (liveRecords s.db (recordsFrom id (totalSize pre) post))) :
    Scanned opt ok s L id (liveRecords s.db (recordsFrom id (totalSize pre) post)) := by
  have hfile := h.sound.holds.files id
  induction post generalizing s L it pre with
  | nil =>
    have hpre : L id = pre := by rw [hrec, List.append_nil]
    exact h.scanned_nil hc (hfile.compactScan_end (hpre.symm ▸ hready))
  | cons e post ih =>
    have hat : RecordAt (L id) (totalSize pre) e := hrec ▸ at_total pre e post
    have hrec' : L id = pre ++ [e] ++ post := by rw [hrec]; simp
    rw [recordsFrom_cons, liveRecords_cons] at hapart hroom ⊢
    dsimp only at hapart hroom ⊢
    by_cases hlive : (s.db.find e.key).map Dir.loc = some ⟨id, totalSize pre⟩
    · rw [if_pos hlive] at hapart hroom ⊢
      obtain ⟨-, dir, hfind, hloc, hsize⟩ := h.liveAtEnd hrec hlive
      -- A live record does not end at the end of the file, so the scan reads it.
      have hlt : totalSize pre + e.size < kMaxFileBytes := by
        refine lt_of_le_of_ne (hat.end_le.trans hfile.fits) fun heq => hend ?_
        exact ⟨e.key, dir, hfind, by rw [hloc], by rw [hloc, hsize, heq]⟩
      obtain ⟨n, t, it', hrun, hdb, hqueue, hinv, hready', hct⟩ := h.pass hc hrec hready hlt
      rw [if_pos hlive] at hct
      refine Scanned.after hrun hdb hqueue ?_
      rw [← hdb] at hactive hend hapart hroom hlive hfind ⊢
      have hnext := hapart.lt_nextLoc hactive
      obtain ⟨u, hrun₂, hcu, hbuffer, hqueue₂, hfm, hinv₂, hfind₂⟩ :=
        hinv.copy_next hct hfind (by rw [hloc]; exact hat) (hok _ _ hroom.1) hroom.1
      have hmoved : liveRecords u.db (recordsFrom id (totalSize pre + e.size) post) =
          liveRecords t.db (recordsFrom id (totalSize pre + e.size) post) :=
        liveRecords_moved hnext.ne' hlive hfind₂
      have hrecu : (L.add (t.nextLoc e).id e) id = pre ++ [e] ++ post := by
        rw [Log.add, Function.update_of_ne hnext.ne, hrec']
      have hactiveu : (t.nextLoc e).id = u.db.fileManager.activeFileId := by
        rw [hfm]
        exact FileManager.nextLoc_id
      have hendu : ¬ LiveAtEnd u.db id := not_liveAtEnd_of_moved hnext.ne' hfind₂ hend
      have hroomu : Along ok u.db.fileManager
          (liveRecords t.db (recordsFrom id (totalSize pre + e.size) post)) := hfm ▸ hroom.2
      rw [← hmoved, ← totalSize_concat] at hroomu
      have hscanned := ih hinv₂ hcu hrecu (hbuffer ▸ hready') (hactiveu ▸ hnext.le) hendu
        (Or.inl (hactiveu ▸ hnext)) hroomu (hinv₂.sound.holds.files id)
      rw [totalSize_concat, hmoved] at hscanned
      exact hscanned.copy hinv hrun₂ hqueue₂ hnext hlive hfind₂
    · -- A dead record is passed.
      rw [if_neg hlive] at hapart hroom ⊢
      rw [← totalSize_concat] at hapart hroom ⊢
      rcases Nat.lt_or_ge (totalSize pre + e.size) kMaxFileBytes with hlt | hge
      · obtain ⟨n, t, it', hrun, hdb, hqueue, hinv, hready', hct⟩ := h.pass hc hrec hready hlt
        rw [if_neg hlive] at hct
        refine Scanned.after hrun hdb hqueue ?_
        have := ih hinv hct hrec' hready' (hdb ▸ hactive) (hdb ▸ hend) (hdb ▸ hapart)
          (hdb ▸ hroom) (hdb ▸ hfile)
        rwa [hdb] at this
      · -- The scan stops in front of a record that fills the file, and it is the last one.
        obtain rfl : post = [] := eq_nil_of_fills (hrec' ▸ hfile) hge
        refine h.scanned_nil hc (hfile.compactScan_fills hready hat ?_)
        exact Nat.le_antisymm (hat.end_le.trans hfile.fits) hge

/-! ### A whole run -/

/-- The records in data file `id`, as the loop of `CreateFile` finds them. -/
def records (s : Session) (id : ℕ) : List Entry :=
  FileManager.unPackAll (s.db.fileManager.dataFiles id)

/-- The live records in data file `id`, in the order of their offsets. -/
def live (s : Session) (id : ℕ) : List (Location × Entry) :=
  liveRecords s.db (recordsFrom id 0 (s.records id))

theorem Inv.records_eq (h : Inv opt s L) (id : ℕ) : s.records id = L id :=
  (h.sound.holds.files id).unPackAll_eq

theorem Inv.storable_of_live {r : Location × Entry} (h : Inv opt s L) (hr : r ∈ s.live id) :
    r.2.Storable := by
  obtain ⟨hmem, -⟩ := mem_liveRecords.mp hr
  rw [h.records_eq] at hmem
  obtain ⟨-, hframe⟩ := mem_locate_iff.mp hmem
  exact (h.sound.holds.files id).storable r.2 (At.mem (mem_frames_iff.mp hframe))

theorem live_of_polled (id : ℕ) {t : Session} (hdb : t.db = s.db.pollCompactTask.2) :
    t.live id = s.live id := by
  simp only [live, records, hdb]
  rfl

/-- `Compact(id)` has done its job. The live records were copied in order and nothing else
was appended; their keys, and no others, lead to the copies; the file is gone. -/
structure Compacted (s t : Session) (id : ℕ) (copies : List (Location × Entry)) : Prop where
  entries : copies.map Prod.snd = (s.live id).map Prod.snd
  files : ∀ j, (t.db.fileManager.dataFiles j).Holds
    (s.records j ++ (copies.filter fun c => c.1.id = j).map Prod.snd)
  moved : ∀ c ∈ copies, RecordAt (t.records c.1.id) c.1.offset c.2 ∧
    t.db.find c.2.key = some { entry_size := c.2.size, loc := c.1 }
  others : ∀ key, (∀ r ∈ s.live id, r.2.key ≠ key) → t.db.find key = s.db.find key
  gone : ∀ key dir, t.db.find key = some dir → dir.loc.id ≠ id
  removed : id ∉ t.db.fileManager.metadata.files

omit [Platform] in
/-- What appending the copies makes of each file. -/
theorem foldl_add (copies : List (Location × Entry)) (L : Log) (j : ℕ) :
    copies.foldl (fun L c => L.add c.1.id c.2) L j =
      L j ++ (copies.filter fun c => c.1.id = j).map Prod.snd := by
  induction copies generalizing L with
  | nil => simp
  | cons c copies ih =>
    rw [List.foldl_cons, ih, Log.add]
    by_cases hj : c.1.id = j
    · subst hj
      simp
    · rw [Function.update_of_ne (Ne.symm hj)]
      simp [hj]

omit [Platform] in
/-- The index leads out of the file once its live records are copied. -/
theorem Copied.not_liveAtEnd {copies : List (Location × Entry)} {o : ℕ} {es : List Entry}
    (h : Copied s s' L L' id (liveRecords s.db (recordsFrom id o es)) copies)
    (hend : ¬ LiveAtEnd s.db id) : ¬ LiveAtEnd s'.db id := by
  rintro ⟨key, dir, hfind, hdir, hlast⟩
  by_cases hkey : ∀ r ∈ liveRecords s.db (recordsFrom id o es), r.2.key ≠ key
  · rw [h.kept key hkey] at hfind
    exact hend ⟨key, dir, hfind, hdir, hlast⟩
  · push Not at hkey
    obtain ⟨r, hr, rfl⟩ := hkey
    have hmem : r.2 ∈ copies.map Prod.snd := h.entries ▸ List.mem_map_of_mem hr
    obtain ⟨c, hc, hcr⟩ := List.mem_map.mp hmem
    obtain ⟨-, hne, hmoved⟩ := h.moved c hc
    rw [← hcr, hmoved] at hfind
    obtain rfl := Option.some_inj.mp hfind
    exact hne hdir

/-- The last block of the run. -/
theorem Inv.finish_next (h : Inv opt s L) (hc : s.compaction = .finish id)
    (hend : ¬ LiveAtEnd s.db id) :
    Session.step opt s .block = some { s with db := s.db.compactFinish id, compaction := .idle } ∧
      (∀ j, ((s.db.compactFinish id).fileManager.dataFiles j).Holds (L j)) ∧
      (∀ key dir, s.db.find key = some dir → dir.loc.id ≠ id) ∧
      id ∉ (s.db.compactFinish id).fileManager.metadata.files := by
  refine ⟨block_finish hc, (h.sound.holds.removeFile id).files, ?_, ?_⟩
  · intro key dir hfind hdir
    have hscans := h.scans
    rw [hc] at hscans
    obtain ⟨x, hx, hlast⟩ := hscans.2 dir.loc (Or.inl ⟨key, dir, hfind, rfl⟩) hdir
    obtain ⟨y, hy, -, -, hsize⟩ := h.sound.pointed key dir hfind
    exact hend ⟨key, dir, hfind, hdir, by rw [hsize, hy.unique hx, hlast]⟩
  · simp [DBImpl.compactFinish]

/-- The first block of the run opens the file, if it is registered. -/
theorem Inv.start_next (h : Inv opt s L) (hc : s.compaction = .start id) :
    ∃ t o, Session.step opt s .block = some t ∧ t.queue = s.queue ∧ Inv opt t L ∧
      t.compaction = (if id ∈ s.db.fileManager.metadata.files then .mark id else .idle) ∧
      t.db = { s.db with fileManager := { s.db.fileManager with openFiles := o } } := by
  obtain ⟨o, hstart, hsound⟩ := h.sound.compactStart_eq id
  refine ⟨_, o, block_start hc hstart, rfl, ⟨hsound, h.written, ?_⟩, rfl, rfl⟩
  dsimp only
  split_ifs with hid
  · exact hid
  · exact trivial

theorem Inv.mark_next (h : Inv opt s L) (hc : s.compaction = .mark id) :
    ∃ t f, Session.step opt s .block = some t ∧ t.queue = s.queue ∧ Inv opt t L ∧
      t.compaction = .scan id (RecordIterator.create kMaxFileBytes) ∧
      t.db = { s.db with fileStates := f } := by
  have hscans := h.scans
  rw [hc] at hscans
  exact ⟨_, _, block_mark hc, rfl, ⟨h.sound.reindex rfl rfl h.sound.max fun _ _ hd => Or.inl hd,
    h.written, Compaction.Scans.mark hscans⟩, rfl, rfl⟩

/-- The whole run, and what it appends meets the condition if the live records do. -/
theorem Inv.exists_compacted (hinv : Inv opt s L) (hc : s.compaction = .start id)
    (hend : ¬ LiveAtEnd s.db id) (hapart : Apart s.db.fileManager id (s.live id))
    (hok : ∀ fm e, ok fm e → ¬ fm.Wraps e)
    (hfiles : ∀ fm e (o : LRUCache ℕ Unit), ok fm e → ok { fm with openFiles := o } e)
    (hroom : Along ok s.db.fileManager (s.live id)) :
    ∃ n t copies, Blocks opt ok s n t ∧ t.compaction = .idle ∧ t.queue = s.queue ∧
      Compacted s t id copies := by
  obtain ⟨t, o, hstep, hqueue, hinvt, hct, hdb⟩ := hinv.start_next hc
  have hrecords : ∀ j, s.records j = L j := hinv.records_eq
  have hstart : ∀ {m u}, Blocks opt ok t m u → Blocks opt ok s (m + 1) u := fun h =>
    h.quiet hstep (by simp [hc])
  -- The file is registered, and its runs go through all of it.
  by_cases hfile : id ∈ s.db.fileManager.metadata.files
  · rw [if_pos hfile] at hct
    obtain ⟨u, f, hstepu, hqueueu, hinvu, hcu, hdbu⟩ := hinvt.mark_next hct
    have hquiet : ∀ id' it next, t.compaction ≠ .append id' it next := by simp [hct]
    have hrun : Blocks opt ok s 2 u := hstart (.quiet hstepu hquiet .nil)
    rw [hdb] at hdbu
    have hfm : u.db.fileManager = { s.db.fileManager with openFiles := o } := by rw [hdbu]
    have hfind : ∀ key, u.db.find key = s.db.find key := fun key => by rw [hdbu]; rfl
    have hlive : liveRecords u.db (recordsFrom id (totalSize []) (L id)) = s.live id := by
      rw [live, hrecords, liveRecords, liveRecords]
      exact List.filter_congr fun r _ => by rw [hfind]
    have hscanned := hinvu.exists_scanned hcu (List.nil_append _).symm
      (RecordIterator.ready_create _)
      (by rw [hfm]; exact hinv.sound.registered.le_active id hfile)
      (by rw [hdbu]; exact hend) (by rw [hlive, hfm]; exact hapart)
      hok (by rw [hlive, hfm]; exact hroom.openFiles o fun fm e => hfiles fm e o)
    obtain ⟨n, v, L', copies, hrun', hcv, hqueuev, hinvv, hcopied⟩ := hscanned
    obtain ⟨hlast, hholds, hgone, hremoved⟩ :=
      hinvv.finish_next hcv (hcopied.not_liveAtEnd (by rw [hdbu]; exact hend))
    rw [hlive] at hcopied
    have hfinal : Blocks opt ok v 1
        { v with db := v.db.compactFinish id, compaction := .idle } :=
      .quiet hlast (by simp [hcv]) .nil
    -- The copies are what has been appended, and the file is gone.
    refine ⟨_, _, copies, hrun.trans (hrun'.trans hfinal), rfl,
      hqueuev.trans (hqueueu.trans hqueue), hcopied.entries, ?_, ?_, ?_, hgone, hremoved⟩
    · intro j
      rw [hrecords, ← foldl_add, ← hcopied.log]
      exact hholds j
    · intro c hc
      obtain ⟨hloc, -, hmoved⟩ := hcopied.moved c hc
      refine ⟨?_, hmoved⟩
      rw [records, (hholds _).unPackAll_eq]
      exact hloc
    · intro key hkey
      exact (hcopied.kept key hkey).trans (hfind key)
  · -- The file was removed before, and no index entry points into it.
    rw [if_neg hfile] at hct
    have hgone : ∀ key dir, s.db.find key = some dir → dir.loc.id ≠ id := by
      rintro key dir hfind rfl
      exact hfile (hinv.sound.kept key dir hfind)
    have hlive : s.live id = [] := by
      refine List.eq_nil_iff_forall_not_mem.mpr fun r hr => ?_
      obtain ⟨hmem, hfind⟩ := mem_liveRecords.mp hr
      obtain ⟨dir, hdir, hloc⟩ := Option.map_eq_some_iff.mp hfind
      exact hgone _ dir hdir (hloc ▸ (mem_recordsFrom hmem).1)
    refine ⟨1, t, [], hstart .nil, hct, hqueue, by rw [hlive], ?_,
      by simp, ?_, ?_, ?_⟩
    · intro j
      rw [hrecords, List.filter_nil, List.map_nil, List.append_nil]
      exact hinvt.sound.holds.files j
    · intro key _
      rw [hdb]
      rfl
    · rw [hdb]
      exact hgone
    · rw [hdb]
      exact hfile

/-- A run of `Compact(id)` does its job, if no live record ends exactly at the end of the
file, the run does not append to the file it scans, and no append of it wraps the file id. -/
theorem compact_eq (hmaintained : Guarded opt (Maintained opt) name as)
    (hreach : Reaches opt name as s) (hc : s.compaction = .start id)
    (hend : ¬ LiveAtEnd s.db id) (hapart : Apart s.db.fileManager id (s.live id))
    (hroom : Unwrapped s.db.fileManager (s.live id)) :
    ∃ n t copies, Run (step opt) s (List.replicate n .block) t ∧ t.compaction = .idle ∧
      t.queue = s.queue ∧ Compacted s t id copies := by
  obtain ⟨L, hinv⟩ := exists_inv hmaintained hreach
  obtain ⟨n, t, copies, hblocks, hidle, hqueue, hcompacted⟩ :=
    hinv.exists_compacted hc hend hapart (fun _ _ h => h) (fun _ _ _ h => h) hroom
  exact ⟨n, t, copies, hblocks.1, hidle, hqueue, hcompacted⟩

end

open scoped Reference

/-- File 1 is sealed, with dead records, a tombstone and three live records, and waits for
`Compact()`. -/
theorem exists_mixed : ∃ (s₀ t : Session) (L : Log) (rest : Bytes),
    ((1 : UInt8) :: rest).length = kMaxFileBytes - 95 ∧ fresh Reference.options [] = some s₀ ∧
    Wrote Reference.options s₀ (fun _ => []) (mixing (1 :: rest)) t L ∧
    Durable Reference.options [] t L ∧ t.db.compactTasks = [1] ∧
    t.db.fileManager.endOfActive = ⟨2, 16⟩ ∧ t.db.fileManager.metadata.files = {1, 2} ∧
    (t.records 1).length = 6 ∧
    t.live 1 = [(⟨1, 47⟩, DBImpl.entryOf Reference.options (.put [107] [3])),
      (⟨1, 63⟩, DBImpl.entryOf Reference.options (.put [109] [4])),
      (⟨1, 79⟩, DBImpl.entryOf Reference.options (.put [110] (1 :: rest)))] := by
  obtain ⟨rest, hlen⟩ := exists_value (kMaxFileBytes - 96)
  obtain ⟨s₀, t, L, hs₀, hdb, hwrote, ht⟩ :=
    exists_wrote [] (placed_mixing hlen)
  have hfm := hwrote.files
  have hindex := hwrote.index
  rw [hdb] at hfm hindex
  have hrecords : t.records 1 = L 1 := ht.inv.records_eq 1
  refine ⟨s₀, t, L, rest, hlen, hs₀, hwrote, ht, by rw [hindex]; rfl, ?_, ?_, ?_, ?_⟩
  · have hactive : t.db.fileManager.activeFileId = 2 := by
      rw [hfm]
      rfl
    have hoffset : t.db.fileManager.activeOffset = totalSize (L 2) :=
      hactive ▸ ht.inv.sound.holds.write
    rw [FileManager.endOfActive, hactive, hoffset, hwrote.log]
    rfl
  · rw [hfm, Finset.pair_comm]
    simp [mixing, FileManager.placed, FileManager.addRecord, FileManager.rolled, newDb, newFiles,
      DBImpl.create, MetadataManager.createDatabase]
  · rw [hrecords, hwrote.log]
    rfl
  · rw [live, hrecords, hwrote.log, hindex]
    rfl

theorem compact_eq_mixing : ∃ s e e' e'', (s.records 1).length = 6 ∧
    s.db.fileManager.activeFileId = 2 ∧
    s.live 1 = [(⟨1, 47⟩, e), (⟨1, 63⟩, e'), (⟨1, 79⟩, e'')] ∧
    ∃ n t copies, Run (step Reference.options) s (List.replicate n .block) t ∧
      t.compaction = .idle ∧ t.queue = s.queue ∧ Compacted s t 1 copies := by
  obtain ⟨s₀, t, L, rest, -, hs₀, hwrote, ht, htasks, hend, -, hlength, hlive⟩ := exists_mixed
  -- `Compact()` polls file 1, and begins with it.
  obtain ⟨u, hpoll, hmeets, hc, -, hdb⟩ := exists_started Reference.options hwrote.quiescent htasks
  have hmaintained : Guarded Reference.options (Maintained Reference.options) []
      ((mixing (1 :: rest)).map (fun r => .write r.2) ++ [.compact, .block]) := by
    intro s₁ hs₁
    obtain rfl := Option.some_inj.mp (hs₀.symm.trans hs₁)
    exact (hwrote.careful.mono fun _ _ hg => ⟨hg.1, hg.2.1⟩).append hwrote.run
      (hmeets.mono fun _ _ hg => hg.1)
  have hrecords : u.records 1 = t.records 1 := by
    rw [records, hdb]
    rfl
  have hlive' : u.live 1 = t.live 1 := live_of_polled 1 hdb
  have hactive : u.db.fileManager.activeFileId = 2 := by
    rw [hdb]
    exact congrArg Location.id hend
  refine ⟨u, _, _, _, hrecords ▸ hlength, hactive, hlive'.trans hlive,
    compact_eq hmaintained ⟨s₀, hs₀, run_append.mpr ⟨t, hwrote.run, hpoll⟩⟩ hc
      (hdb ▸ ht.not_liveAtEnd 1) (Or.inl (by rw [hactive]; decide)) (unwrapped_of_lt ?_)⟩
  rw [hlive', hlive, hactive]
  exact (by decide : 2 + 3 < 2 ^ 32)

/-- A key is put twice, and `Compact(1)` is about to begin. -/
def putPutCompact : List Action :=
  [.write (.put [107] [118]), .write (.put [107] [119]), .compact, .block]

/-- File 1 is the active file. The run copies its live record to its end, meets the copy
there, and copies it again. -/
theorem exists_copied_twice : ∃ s t o e, Reaches Reference.options [] putPutCompact s ∧
    s.compaction = .start 1 ∧
    Run (step Reference.options) s (List.replicate 11 .block) t ∧ t.queue = s.queue ∧
    s.live 1 = [(⟨1, o⟩, e)] ∧ t.records 1 = s.records 1 ++ [e, e] := by
  obtain ⟨s₀, hs₀, -⟩ := exists_fresh Reference.options []
  have hrun : (((fresh Reference.options []).bind fun s =>
      putPutCompact.foldlM (step Reference.options) s).bind fun s =>
        ((List.replicate 11 Action.block).foldlM (step Reference.options) s).map fun t =>
          decide (s.compaction = .start 1 ∧ t.queue = s.queue ∧
            s.live 1 = [(⟨1, 16⟩, DBImpl.entryOf Reference.options (.put [107] [119]))] ∧
            t.records 1 = s.records 1 ++
              [DBImpl.entryOf Reference.options (.put [107] [119]),
                DBImpl.entryOf Reference.options (.put [107] [119])])) = some true := by
    decide +kernel
  rw [hs₀] at hrun
  obtain ⟨s, hs, hrun⟩ := Option.bind_eq_some_iff.mp hrun
  obtain ⟨t, ht, htrue⟩ := Option.map_eq_some_iff.mp hrun
  obtain ⟨hc, hqueue, hlive, hrecords⟩ := of_decide_eq_true htrue
  exact ⟨s, t, _, _, ⟨s₀, hs₀, hs⟩, hc, ht, hqueue, hlive, hrecords⟩

end PedroDB.Session
