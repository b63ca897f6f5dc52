import PedroDB.Concurrent
import PedroDB.Theorems.Crashes
import PedroDB.Theorems.FileCompaction

/-!
# A whole call of `Compact()`

`Compact()` polls the files that have enough dead bytes and compacts them one after
another. It ends, also when it scans the very file that it appends to: an iterator moves
towards the end of its file with each record. Meanwhile no answer changes, and when it has
ended the polled files are gone and no others.

## Main definitions

* `Session.pending` — the files that the running call has still to remove
* `Session.blocksLeft` — a bound on the blocks that it still takes

## Main results

* `Session.Inv.advances` — what a block does to them
* `Session.compact_ends` — the whole call
-/

namespace PedroDB

/-- `Append` registers a new file at most. -/
theorem FileManager.mem_files_of_appended [Platform] {fm : FileManager} {e : Entry} {id : ℕ}
    (hid : id ∈ (fm.appended e).metadata.files) (hle : id ≤ fm.activeFileId) :
    id ∈ fm.metadata.files := by
  unfold FileManager.appended at hid
  split_ifs at hid
  · exact hid
  · simp only [addRecord, rolled, MetadataManager.createFile_files, Finset.mem_insert] at hid
    exact hid.resolve_left (by omega)

namespace Session

open Transition LastWriter

section

variable [Platform] {opt : Options} {name : Bytes} {fs : List Fate} {s s' t : Session}
  {L L' : Log} {id : ℕ}

/-- The files that the running `Compact()` has polled and not removed. -/
def pending (s : Session) : List ℕ := s.compaction.files ++ s.queue

/-- At most four blocks for a record, and each record moves the iterator. -/
def blocksOf : Compaction → ℕ
  | .idle => 0
  | .start _ => 4 * kMaxFileBytes + 5
  | .mark _ => 4 * kMaxFileBytes + 4
  | .scan _ it => 4 * (kMaxFileBytes - it.index) + 3
  | .check _ it _ _ => 4 * (kMaxFileBytes - it.index) + 6
  | .append _ it _ => 4 * (kMaxFileBytes - it.index) + 5
  | .install _ it _ _ => 4 * (kMaxFileBytes - it.index) + 4
  | .finish _ => 1

/-- A bound on the blocks that the running `Compact()` still takes. -/
def blocksLeft (s : Session) : ℕ :=
  blocksOf s.compaction + s.queue.length * (4 * kMaxFileBytes + 6)

/-- What a block does to what is left to do, and to the registered files. -/
structure Advances (s s' : Session) : Prop where
  blocks : blocksLeft s' < blocksLeft s
  left : ∀ id ∈ s'.pending, id ∈ s.pending
  removed : ∀ id ∈ s.pending, id ∈ s'.pending ∨ id ∉ s'.db.fileManager.metadata.files
  kept : ∀ id ∈ s.db.fileManager.metadata.files,
    id ∈ s'.db.fileManager.metadata.files ∨ id ∈ s.pending
  created : ∀ id ∈ s'.db.fileManager.metadata.files, id ≤ s.db.fileManager.activeFileId →
    id ∈ s.db.fileManager.metadata.files
  active : s.db.fileManager.activeFileId ≤ s'.db.fileManager.activeFileId

omit [Platform] in
/-- A block that removes no file and makes none. It may end its run only if the file is gone. -/
theorem Advances.of_files {c : Compaction} (hc : s.compaction = c)
    (hblocks : blocksOf s'.compaction < blocksOf c) (hqueue : s'.queue = s.queue)
    (hfiles : s'.compaction.files = c.files ∨ s'.compaction.files = [] ∧
      ∀ id ∈ c.files, id ∉ s.db.fileManager.metadata.files)
    (hmetadata : s'.db.fileManager.metadata = s.db.fileManager.metadata)
    (hactive : s'.db.fileManager.activeFileId = s.db.fileManager.activeFileId) :
    Advances s s' := by
  subst hc
  refine ⟨?_, fun id hid => ?_, fun id hid => ?_, fun id hid => Or.inl (hmetadata ▸ hid),
    fun id hid _ => hmetadata ▸ hid, hactive.ge⟩
  · rw [blocksLeft, blocksLeft, hqueue]
    exact Nat.add_lt_add_right hblocks _
  · rw [pending, List.mem_append, hqueue] at hid
    rw [pending, List.mem_append]
    refine hid.imp_left fun hid => ?_
    rcases hfiles with hfiles | ⟨hfiles, -⟩
    · exact hfiles ▸ hid
    · rw [hfiles] at hid
      cases hid
  · rw [pending, List.mem_append] at hid
    rw [pending, List.mem_append, hqueue, hmetadata]
    rcases hfiles with hfiles | ⟨-, hgone⟩
    · exact Or.inl (hfiles ▸ hid)
    · rcases hid with hid | hid
      · exact Or.inr (hgone id hid)
      · exact Or.inl (Or.inr hid)

/-- One round of the scan moves the iterator, or ends the scan. -/
theorem Inv.blocksOf_compactScan {it : RecordIterator} (h : Inv opt s L)
    (hc : s.compaction = .scan id it) :
    blocksOf (s.db.compactScan id it s.buffer).1 < blocksOf (.scan id it) ∧
      (s.db.compactScan id it s.buffer).1.files = [id] := by
  have hscans := h.scans
  rw [hc] at hscans
  obtain ⟨-, pre, post, hat⟩ := hscans
  have hfile := h.sound.holds.files id
  have hindex := hat.ready.index
  cases post with
  | nil =>
    have hpre : L id = pre := by rw [hat.records, List.append_nil]
    rw [hfile.compactScan_end (hpre.symm ▸ hat.ready)]
    refine ⟨?_, rfl⟩
    simp only [blocksOf]
    omega
  | cons e post =>
    have hrec : RecordAt (L id) (totalSize pre) e := hat.records ▸ Framing.at_total pre e post
    have hle := hrec.end_le.trans hfile.fits
    have hpos := e.size_pos
    rcases Nat.lt_or_ge (totalSize pre + e.size) kMaxFileBytes with hlt | hge
    · obtain ⟨it', rest, hscan, hready⟩ := hfile.compactScan_record hat.ready hrec hlt
      have hindex' := hready.index
      rw [hscan]
      dsimp only
      split_ifs
      · refine ⟨?_, rfl⟩
        simp only [blocksOf]
        omega
      · refine ⟨?_, rfl⟩
        simp only [blocksOf]
        omega
    · rw [hfile.compactScan_fills hat.ready hrec (Nat.le_antisymm hle hge)]
      refine ⟨?_, rfl⟩
      simp only [blocksOf]
      omega

/-- Each block of the running `Compact()` brings it closer to its end. -/
theorem Inv.advances (h : Inv opt s L) (hw : Within opt s .block)
    (hstep : Session.step opt s .block = some s') : Advances s s' := by
  have hscans := h.scans
  simp only [Session.step, compactBlock] at hstep
  rcases hc : s.compaction with _ | id | id | ⟨id, it⟩ | ⟨id, it, offset, next⟩ |
    ⟨id, it, next⟩ | ⟨id, it, next, loc⟩ | id <;> rw [hc] at hscans hstep
  · -- The next file is taken from the queue.
    cases hq : s.queue with
    | nil => simp [hq] at hstep
    | cons id queue =>
      simp only [hq, Option.some.injEq] at hstep
      subst hstep
      have hsame : ∀ j, j ∈ pending { s with queue, compaction := .start id } ↔
          j ∈ s.pending := by
        simp [pending, hc, hq, Compaction.files]
      refine ⟨?_, fun j hj => (hsame j).mp hj, fun j hj => Or.inl ((hsame j).mpr hj),
        fun j hj => Or.inl hj, fun j hj _ => hj, le_rfl⟩
      simp only [blocksLeft, blocksOf, hc, hq, List.length_cons, Nat.succ_mul]
      omega
  · -- The file opens, or it is registered no more.
    obtain ⟨o, hstart, -⟩ := h.sound.compactStart_eq id
    simp only [DBImpl.compactStep, hstart, Option.map_some, Option.some.injEq] at hstep
    subst hstep
    refine Advances.of_files hc ?_ rfl ?_ rfl rfl
    · dsimp only
      split_ifs <;> simp [blocksOf]
    · dsimp only
      split_ifs with hid
      · exact Or.inl rfl
      · exact Or.inr ⟨rfl, by simpa [Compaction.files] using hid⟩
  · simp only [DBImpl.compactStep, Option.map_some, Option.some.injEq] at hstep
    subst hstep
    exact Advances.of_files hc (by simp [blocksOf, RecordIterator.create]) rfl (Or.inl rfl) rfl rfl
  · -- The next record, or the end of the file.
    obtain ⟨hblocks, hfiles⟩ := h.blocksOf_compactScan hc
    simp only [DBImpl.compactStep, Option.map_some, Option.some.injEq] at hstep
    subst hstep
    exact Advances.of_files hc hblocks rfl (Or.inl hfiles) rfl rfl
  · simp only [DBImpl.compactStep, Option.map_some, Option.some.injEq] at hstep
    subst hstep
    rcases DBImpl.compactCheck_cases id it offset next s.db with heq | ⟨-, -, -, heq⟩
    · exact Advances.of_files hc (by simp [heq, blocksOf]) rfl (Or.inl (by rw [heq]; rfl)) rfl rfl
    · exact Advances.of_files hc (by simp [heq, blocksOf]) rfl (Or.inl (by rw [heq]; rfl)) rfl rfl
  · -- The copy goes into the active file, or into a new one.
    have hwrap : ¬ s.db.fileManager.Wraps next := by simpa [Within, hc] using hw
    obtain ⟨happend, -, -⟩ := hscans.append h.sound hwrap
    simp only [DBImpl.compactStep, happend, Option.map_some, Option.some.injEq] at hstep
    subst hstep
    refine ⟨?_, fun j hj => ?_, fun j hj => ?_, fun j hj => ?_, fun j hj hle => ?_, ?_⟩
    · simp [blocksLeft, blocksOf, hc]
    · simpa [pending, hc, Compaction.files] using hj
    · exact Or.inl (by simpa [pending, hc, Compaction.files] using hj)
    · exact Or.inl (FileManager.files_subset_appended hj)
    · exact FileManager.mem_files_of_appended hj hle
    · exact FileManager.activeFileId_le_appended
  · simp only [DBImpl.compactStep, Option.map_some, Option.some.injEq] at hstep
    subst hstep
    refine Advances.of_files hc (by simp [blocksOf]) rfl (Or.inl rfl) ?_ ?_
    · exact congrArg FileManager.metadata (DBImpl.compactInstall_fileManager next loc s.db)
    · exact congrArg FileManager.activeFileId (DBImpl.compactInstall_fileManager next loc s.db)
  · -- The file is removed.
    simp only [DBImpl.compactStep, Option.map_some, Option.some.injEq] at hstep
    subst hstep
    have hfiles : (s.db.compactFinish id).fileManager.metadata.files =
        s.db.fileManager.metadata.files.erase id := FileManager.removeFile_files
    refine ⟨?_, fun j hj => ?_, fun j hj => ?_, fun j hj => ?_, fun j hj _ => ?_, ?_⟩
    · simp [blocksLeft, blocksOf, hc]
    · simp only [pending, Compaction.files, List.nil_append] at hj
      exact List.mem_append_right _ hj
    · simp only [pending, hc, Compaction.files, List.mem_append, List.mem_singleton] at hj
      rcases hj with rfl | hj
      · exact Or.inr (by simp [hfiles])
      · exact Or.inl (by simpa [pending, Compaction.files] using hj)
    · by_cases hid : j = id
      · exact Or.inr (by simp [pending, hc, Compaction.files, hid])
      · exact Or.inl (by simp [hfiles, hid, hj])
    · simp only [hfiles, Finset.mem_erase] at hj
      exact hj.2
    · exact FileManager.removeFile_activeFileId.ge

/-- As long as files are left, there is a next block. -/
theorem Inv.exists_block (h : Inv opt s L) (hw : Within opt s .block) (hidle : ¬ s.Quiescent) :
    ∃ u, Session.step opt s .block = some u := by
  have hscans := h.scans
  simp only [Session.step, compactBlock]
  rcases hc : s.compaction with _ | id | id | ⟨id, it⟩ | ⟨id, it, offset, next⟩ |
    ⟨id, it, next⟩ | ⟨id, it, next, loc⟩ | id <;> rw [hc] at hscans
  · cases hq : s.queue with
    | nil => exact absurd ⟨hq, hc⟩ hidle
    | cons id queue => exact ⟨_, rfl⟩
  · exact ⟨_, rfl⟩
  · exact ⟨_, rfl⟩
  · exact ⟨_, rfl⟩
  · exact ⟨_, rfl⟩
  · have hwrap : ¬ s.db.fileManager.Wraps next := by simpa [Within, hc] using hw
    obtain ⟨happend, -, -⟩ := hscans.append h.sound hwrap
    simp only [DBImpl.compactStep, happend, Option.map_some]
    exact ⟨_, rfl⟩
  · exact ⟨_, rfl⟩
  · exact ⟨_, rfl⟩

/-- What a call of `Compact()` has done so far, from the state in which it had polled its files. -/
structure Compacts (opt : Options) (name : Bytes) (s t : Session) : Prop where
  durable : ∃ L, Durable opt name t L
  records : ∀ key, t.db.recordOf key = s.db.recordOf key
  removed : ∀ id ∈ s.db.fileManager.metadata.files, id ∈ s.pending →
    id ∈ t.pending ∨ id ∉ t.db.fileManager.metadata.files
  kept : ∀ id ∈ s.db.fileManager.metadata.files, id ∉ s.pending →
    id ∈ t.db.fileManager.metadata.files
  left : ∀ id ∈ t.pending, id ∈ s.pending
  active : s.db.fileManager.activeFileId ≤ t.db.fileManager.activeFileId

theorem Compacts.block (h : Compacts opt name s t) (hs : Durable opt name s L)
    (hg : Roomy opt t (.act .block)) (hstep : Session.step opt t .block = some s') :
    Compacts opt name s s' ∧ blocksLeft s' < blocksLeft t := by
  obtain ⟨L', ht⟩ := h.durable
  obtain ⟨L'', he, h'⟩ := ht.step hg hstep
  have hadv := ht.inv.advances hg.1 hstep
  refine ⟨⟨⟨L'', h'⟩, fun key => ?_, fun id hid hp => ?_, fun id hid hp => ?_,
    fun id hid => h.left id (hadv.left id hid), h.active.trans hadv.active⟩, hadv.blocks⟩
  · rw [ht.recordOf_step h' he (by simp), h.records]
  · rcases h.removed id hid hp with hp | hgone
    · exact hadv.removed id hp
    · -- A file that is gone does not come back, since new ones have greater ids.
      refine Or.inr fun hback => hgone (hadv.created id hback ?_)
      exact (hs.inv.sound.registered.le_active id hid).trans h.active
  · exact (hadv.kept id (h.kept id hid hp)).resolve_right fun hp' => hp (h.left id hp')

/-- A call of `Compact()`, after any run with crashes. It takes a bounded number of blocks,
there is a next one until it has returned, and no block changes an answer. When it has returned,
the polled files are gone, and all other ones are still there. -/
theorem compact_ends {n : ℕ} (hname : name.length < 2 ^ 16)
    (hroomy : ∀ s₀, fresh opt name = some s₀ → Meets (fateStep opt name) (Roomy opt) s₀
      (fs ++ .act .compact :: List.replicate n (.act .block)))
    (hsurvives : Survives opt name fs s)
    (hrun : Run (fateStep opt name) s (.act .compact :: List.replicate n (.act .block)) t) :
    n ≤ s.db.compactTasks.length * (4 * kMaxFileBytes + 6) ∧
      (¬ t.Quiescent → Within opt t .block → ∃ u, step opt t .block = some u) ∧
      (∀ key, t.db.answer opt key = s.db.answer opt key) ∧
      (t.Quiescent → ∀ id ∈ s.db.fileManager.metadata.files,
        (id ∈ t.db.fileManager.metadata.files ↔ id ∉ s.db.compactTasks)) := by
  obtain ⟨L, h⟩ := exists_durable hname (fun s₀ hs₀ => (hroomy s₀ hs₀).of_append) hsurvives
  obtain ⟨s₀, hs₀, hrun₀⟩ := hsurvives
  obtain ⟨hgc, hmeets⟩ := meets_cons.mp ((hroomy s₀ hs₀).of_run hrun₀)
  obtain ⟨p, hpoll, hblocks⟩ := run_cons.mp hrun
  -- The files are polled.
  obtain ⟨Lp, he, hp⟩ := h.step hgc hpoll
  have hmeets := hmeets p hpoll
  simp only [fateStep, step] at hpoll
  split_ifs at hpoll with hidle
  have hrecords := h.recordOf_step hp he (by simp)
  have hstart : Compacts opt name p p :=
    ⟨⟨Lp, hp⟩, fun _ => rfl, fun _ _ hid => Or.inl hid, fun _ hid _ => hid, fun _ hid => hid,
      le_rfl⟩
  have hpending : ∀ id, id ∈ p.pending ↔ id ∈ s.db.compactTasks := by
    intro id
    rw [← Option.some_inj.mp hpoll]
    simp [pending, hidle.2, Compaction.files, DBImpl.pollCompactTask]
  have hleft : blocksLeft p = s.db.compactTasks.length * (4 * kMaxFileBytes + 6) := by
    rw [← Option.some_inj.mp hpoll]
    simp [blocksLeft, hidle.2, blocksOf, DBImpl.pollCompactTask]
  have hsame : p.db.fileManager = s.db.fileManager := by
    rw [← Option.some_inj.mp hpoll]
    rfl
  -- One block after another.
  have hguard : Meets (fateStep opt name) (fun s f => Roomy opt s f ∧ f = .act .block) p
      (List.replicate n (.act .block)) := by
    intro pre f post u heq hpre
    refine ⟨hmeets pre f post u heq hpre, ?_⟩
    exact List.eq_of_mem_replicate (heq ▸ List.mem_append_right pre List.mem_cons_self)
  have hstep : ∀ u f v, Compacts opt name p u → Roomy opt u f ∧ f = .act .block →
      fateStep opt name u f = some v → Compacts opt name p v ∧ blocksLeft v < blocksLeft u := by
    rintro u f v hu ⟨hg, rfl⟩ hv
    exact hu.block hp hg hv
  have hbound := hblocks.length_le hguard hstart hstep
  have hend : Compacts opt name p t :=
    hblocks.invariant hguard hstart fun u f v hu hg hv => (hstep u f v hu hg hv).1
  obtain ⟨Lt, ht⟩ := hend.durable
  refine ⟨?_, fun hbusy hw => ht.inv.exists_block hw hbusy, fun key => ?_, fun hquiet id hid => ?_⟩
  · rw [List.length_replicate, hleft] at hbound
    omega
  · rw [ht.inv.sound.answer_eq opt ht.room, h.inv.sound.answer_eq opt h.room, hend.records,
      hrecords]
  · -- Nothing is left to be removed.
    have hnone : t.pending = [] := by
      rw [pending, hquiet.1, hquiet.2]
      rfl
    have hid' : id ∈ p.db.fileManager.metadata.files := by rwa [hsame]
    rw [← hpending]
    constructor
    · intro hmem hp
      rcases hend.removed id hid' hp with hleft | hgone
      · rw [hnone] at hleft
        cases hleft
      · exact hgone hmem
    · exact hend.kept id hid'

/-- Nothing that is appended wraps the file id or fills its file. -/
def Inside (fm : FileManager) (e : Entry) : Prop := ¬ fm.Wraps e ∧ ¬ fm.Fills e

/-- Records that all fit into the active file, and do not fill it, stay inside. -/
theorem inside_of_fits {fm : FileManager} {rs : List (Location × Entry)} (h : fm.Holds L)
    (hs : ∀ r ∈ rs, r.2.Storable)
    (hend : fm.activeOffset + totalSize (rs.map Prod.snd) < kMaxFileBytes) :
    Along Inside fm rs := by
  induction rs generalizing fm L with
  | nil => trivial
  | cons r rs ih =>
    rw [List.map_cons, totalSize_cons] at hend
    have hfits : fm.Fits r.2 := by
      rw [FileManager.Fits]
      omega
    have hnext : fm.nextLoc r.2 = ⟨fm.activeFileId, fm.activeOffset⟩ := if_pos hfits
    have hr := hs r List.mem_cons_self
    have hoffset : (fm.appended r.2).activeOffset = fm.activeOffset + r.2.size := by
      have := h.endOfActive_appended hr
      rw [hnext] at this
      exact congrArg Location.offset this
    refine ⟨⟨fun hwrap => hwrap.1 hfits, ?_⟩, ih (h.appended hr)
      (fun x hx => hs x (List.mem_cons_of_mem _ hx)) (by rw [hoffset]; omega)⟩
    rw [FileManager.Fills, hnext]
    dsimp only
    omega

/-- The next block leaves room if its copy does, and removes a sealed file if it removes one. -/
theorem roomy_block (opt : Options) (hinside : Appending Inside s .block)
    (hsealed : ∀ id ∈ s.pending, id < s.db.fileManager.activeFileId) :
    Roomy opt s (.act .block) := by
  refine ⟨?_, ?_⟩
  · simp only [Within]
    split
    · next id it next hc => exact (hinside id it next hc).1
    · trivial
  · simp only [EndsInside]
    split
    · next id it next hc => exact (hinside id it next hc).2
    · next id hc => exact (hsealed id (by simp [pending, hc, Compaction.files])).ne
    · trivial

/-- A call of `Compact()` on sealed files leaves room if its copies do. -/
theorem Blocks.roomy {n : ℕ} (h : Blocks opt Inside s n t) (hs : Durable opt name s L)
    (hsealed : ∀ id ∈ s.pending, id < s.db.fileManager.activeFileId) :
    Meets (step opt) (fun u a => Roomy opt u (.act a)) s (List.replicate n .block) := by
  intro pre a post u heq hpre
  obtain rfl : a = .block :=
    List.eq_of_mem_replicate (heq ▸ List.mem_append_right pre List.mem_cons_self)
  -- All along the run the files that are left to be removed are sealed.
  have hguard : Meets (step opt) (fun v b => Appending Inside v b ∧ b = .block) s pre := by
    rintro pre' b post' v rfl hv
    refine ⟨h.2 pre' b (post' ++ .block :: post) v (by simp [heq]) hv, ?_⟩
    have hmem : b ∈ pre' ++ b :: post' ++ .block :: post := by simp
    rw [← heq] at hmem
    exact List.eq_of_mem_replicate hmem
  obtain ⟨L', -, hsealed'⟩ := hpre.invariant
    (P := fun v => ∃ L', Durable opt name v L' ∧
      ∀ id ∈ v.pending, id < v.db.fileManager.activeFileId) hguard ⟨L, hs, hsealed⟩ (by
    rintro v b w ⟨Lv, hv, hv'⟩ ⟨hinside, rfl⟩ hstep
    have hroomy := roomy_block opt hinside hv'
    obtain ⟨Lw, -, hw⟩ := hv.step hroomy hstep
    have hadv := hv.inv.advances hroomy.1 hstep
    exact ⟨Lw, hw, fun id hid => (hv' id (hadv.left id hid)).trans_le hadv.active⟩)
  exact roomy_block opt (h.2 pre .block post u heq hpre) hsealed'

end

open scoped Reference

/-- File 1 is sealed and has three live records. `Compact()` copies them to file 2 and returns,
and file 1 is gone. -/
theorem compact_ends_mixing : ∃ (fs : List Fate) (n : ℕ) (s t : Session),
    Survives Reference.options [] fs s ∧
    Run (fateStep Reference.options []) s (.act .compact :: List.replicate n (.act .block)) t ∧
    s.db.compactTasks = [1] ∧ (s.live 1).length = 3 ∧ t.Quiescent ∧
    n ≤ 4 * kMaxFileBytes + 6 ∧
    (∀ key, t.db.answer Reference.options key = s.db.answer Reference.options key) ∧
    1 ∈ s.db.fileManager.metadata.files ∧ 1 ∉ t.db.fileManager.metadata.files ∧
    2 ∈ t.db.fileManager.metadata.files := by
  obtain ⟨s₀, s, L, rest, hlen, hs₀, hwrote, hs, htasks, hlast, hfiles, -, hlive⟩ := exists_mixed
  obtain ⟨u, hpoll, hmeets, hc, hqueue, hdb⟩ :=
    exists_started Reference.options hwrote.quiescent htasks
  have hmeets := hmeets.mono fun _ _ hg => hg.2
  obtain ⟨Lu, hu⟩ : ∃ Lu, Durable Reference.options [] u Lu :=
    exists_durable (by decide) (fun s₁ hs₁ => Option.some_inj.mp (hs₀.symm.trans hs₁) ▸
      meets_fates _ (hwrote.meets.append hwrote.run hmeets))
      ⟨s₀, hs₀, run_fates _ (run_append.mpr ⟨s, hwrote.run, hpoll⟩)⟩
  have hactive : u.db.fileManager.activeFileId = 2 := by
    rw [hdb]
    exact congrArg Location.id hlast
  have hlive' := (live_of_polled 1 hdb).trans hlive
  -- The three copies fit into file 2.
  have hinside : Along Inside u.db.fileManager (u.live 1) := by
    have hoffset : u.db.fileManager.activeOffset = 16 := by
      rw [hdb]
      exact congrArg Location.offset hlast
    refine inside_of_fits hu.inv.sound.holds (fun r hr => hu.inv.storable_of_live hr) ?_
    rw [hoffset, hlive']
    simp only [List.map_cons, List.map_nil, totalSize_cons, size_entryOf, Write.put, hlen]
    decide
  obtain ⟨m, t, copies, hblocks, hidle, hqueue', hcompacted⟩ :=
    hu.inv.exists_compacted hc (hu.not_liveAtEnd 1)
      (Or.inl (by rw [hactive]; decide)) (fun _ _ h => h.1) (fun _ _ _ h => h) hinside
  have hsealed : ∀ id ∈ u.pending, id < u.db.fileManager.activeFileId := by
    intro id hid
    simp only [pending, hc, hqueue, Compaction.files, List.append_nil, List.mem_singleton] at hid
    rw [hid, hactive]
    decide
  have hrun : Run (step Reference.options) s (.compact :: List.replicate (m + 1) .block) t :=
    run_append.mpr ⟨u, hpoll, hblocks.1⟩
  have hroomy := meets_fates []
    (hwrote.meets.append hwrote.run (hmeets.append hpoll (hblocks.roomy hu hsealed)))
  have hfates : List.map Fate.act (.compact :: List.replicate (m + 1) .block) =
      .act .compact :: List.replicate (m + 1) (.act .block) := by
    rw [List.map_cons, List.map_replicate]
  have hrun' := run_fates [] hrun
  rw [hfates] at hrun'
  rw [List.map_append] at hroomy
  obtain ⟨hn, -, hanswer, hgone⟩ := compact_ends (by decide)
    (fun s₁ hs₁ => Option.some_inj.mp (hs₀.symm.trans hs₁) ▸ (hfates ▸ hroomy))
      ⟨s₀, hs₀, run_fates _ hwrote.run⟩ hrun'
  have hgone := hgone ⟨hqueue'.trans hqueue, hidle⟩
  rw [htasks, hfiles] at hgone
  rw [htasks, List.length_singleton, Nat.one_mul] at hn
  refine ⟨_, m + 1, s, t, ⟨s₀, hs₀, run_fates _ hwrote.run⟩, hrun', htasks, by rw [hlive]; rfl,
    ⟨hqueue'.trans hqueue, hidle⟩, hn, hanswer, by rw [hfiles]; decide, ?_, ?_⟩
  · simpa using hgone 1 (by decide)
  · simpa using hgone 2 (by decide)

end Session
end PedroDB
