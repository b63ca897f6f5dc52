import PedroDB.WriteRuns

/-!
# Lost index files

An index file holds nothing that the data file does not hold, and the recovery works
without it, but not in the same way: it lists the records of the data file instead, and
does not come to a record that ends where the file does. So index files can be lost
without a trace exactly if none of them belongs to a data file that is full.

## Main definitions

* `Disk.without` — the disk without some index files
* `Session.Upkeep` — the condition on the events of a run

## Main results

* `Log.recovered_without_iff` — the records of one file
* `DBImpl.Recovers.filter_eq` — index and counters tell which records were recovered
* `Session.lost_iff_full` — index files lost after any run
-/

namespace PedroDB

open Transition Framing LastWriter

section

variable [Platform] {opt : Options} {name : Bytes} {L L' : Log} {id : ℕ} {ids : Finset ℕ}

/-- The disk without the index files of `ids`. -/
def Disk.without (ids : Finset ℕ) (disk : Disk) : Disk :=
  { disk with indexFiles := fun id => if id ∈ ids then none else disk.indexFiles id }

/-- The records are all still there. -/
theorem Disk.Holds.without {disk : Disk} {m : MetadataManager} {active : ℕ}
    (h : disk.Holds m active L) (ids : Finset ℕ) : (disk.without ids).Holds m active L where
  metadata := h.metadata
  logged := h.logged
  name := h.name
  mem_active := h.mem_active
  le_active := h.le_active
  bound := h.bound
  present := h.present
  records := h.records
  index := by
    intro id bytes hbytes
    simp only [Disk.without] at hbytes
    split_ifs at hbytes
    exact h.index id bytes hbytes

omit [Platform] in
/-- The record behind which nothing is left in the file. -/
theorem exists_last (hfull : totalSize (L id) = kMaxFileBytes) :
    ∃ r ∈ L.records id, r.1.offset + r.2.size = kMaxFileBytes := by
  rcases List.eq_nil_or_concat (L id) with hnil | ⟨es, e, hes⟩
  · rw [hnil] at hfull
    cases hfull
  · rw [List.concat_eq_append] at hes
    refine ⟨(⟨id, totalSize es⟩, e), Log.mem_records_iff.mpr ⟨rfl, es, [], by simpa using hes, rfl⟩, ?_⟩
    rw [hes, totalSize_concat] at hfull
    exact hfull

omit [Platform] in
/-- What the recovery sees without the index files of `ids` is some of what it sees with them. -/
theorem Log.recovered_without {disk : Disk} : L.recovered (disk.without ids).indexFiles id =
    (L.recovered disk.indexFiles id).filter
      fun r => id ∉ ids ∨ r.1.offset + r.2.size < kMaxFileBytes := by
  by_cases hid : id ∈ ids
  · have hnone : (disk.without ids).indexFiles id = none := if_pos hid
    rw [Log.recovered, Log.recovered, hnone, if_neg (by simp)]
    split_ifs <;> simp [hid]
  · have hsame : (disk.without ids).indexFiles id = disk.indexFiles id := if_neg hid
    simp [Log.recovered, hsame, hid]

omit [Platform] in
/-- The recovery sees the same records of a file with and without its index file, unless the
file is full. -/
theorem Log.recovered_without_iff {disk : Disk} (hfits : totalSize (L id) ≤ kMaxFileBytes) :
    L.recovered (disk.without ids).indexFiles id = L.recovered disk.indexFiles id ↔
      (id ∈ ids → (disk.indexFiles id).isSome → totalSize (L id) ≠ kMaxFileBytes) := by
  rw [Log.recovered_without, List.filter_eq_self]
  constructor
  · -- The last record of a full file is not seen.
    intro hall hid hsome hfull
    obtain ⟨r, hr, hend⟩ := exists_last hfull
    have hseen : r ∈ L.recovered disk.indexFiles id := by rwa [Log.recovered, if_pos hsome]
    rcases of_decide_eq_true (hall r hseen) with hnot | hlt
    · exact hnot hid
    · exact hlt.ne hend
  · intro hroom r hr
    refine decide_eq_true (or_iff_not_imp_left.mpr fun hid => ?_)
    by_cases hsome : (disk.indexFiles id).isSome
    · obtain ⟨rfl, hloc⟩ := Log.mem_records_iff.mp (Log.recovered_subset r hr)
      exact hloc.end_le.trans_lt (lt_of_le_of_ne hfits (hroom (not_not.mp hid) hsome))
    · rw [Log.recovered, if_neg hsome] at hr
      exact of_decide_eq_true (List.mem_filter.mp hr).2

namespace DBImpl

variable {db db' : DBImpl} {rs : ℕ → List (Location × Entry)} {p : ℕ → Location × Entry → Bool}

omit [Platform]

/-- The records of a file stand at distinct locations. -/
theorem Recovers.eq_of_loc (h : db.Recovers rs) {f : ℕ} {r r' : Location × Entry} (hr : r ∈ rs f)
    (hr' : r' ∈ rs f) (hloc : r.1 = r'.1) : r = r' := by
  have hnodup : ((rs f).map Prod.fst).Nodup :=
    List.pairwise_map.mpr ((h.sorted f).imp fun hlt => hlt.ne)
  exact List.inj_on_of_nodup_map hnodup hr hr' hloc

/-- Only one index, and one value of each counter, comes from given records. -/
theorem Recovers.unique (h : db.Recovers rs) (h' : db'.Recovers rs) :
    db'.find = db.find ∧ ∀ f, (db'.fileStates f).free_bytes = (db.fileStates f).free_bytes := by
  have hfind : db'.find = db.find := by
    refine h'.reflects.unique (fun r hr r' hr' hloc => ?_) h.reflects
    simp only [Set.mem_ofPred_eq, show r'.1 = r.1 from hloc.symm] at hr'
    exact h.eq_of_loc hr hr' hloc
  exact ⟨hfind, fun f => by rw [h.free, h'.free, hfind]⟩

/-- Two recoveries that end with the same index and the same counters have seen the same
records, if one has seen some of those of the other. -/
theorem Recovers.filter_eq (h : db.Recovers rs) (h' : db'.Recovers fun f => (rs f).filter (p f))
    (hfind : db'.find = db.find)
    (hfree : ∀ f, (db'.fileStates f).free_bytes = (db.fileStates f).free_bytes) (f : ℕ) :
    (rs f).filter (p f) = rs f := by
  refine List.filter_eq_self.mpr fun r hr => ?_
  by_contra hp
  have hp : p f r = false := Bool.eq_false_iff.mpr hp
  -- A record that only the one has seen is not counted as dead, so its index leads to it.
  have hdead : deadBytes db.find ((rs f).filter (p f)) = deadBytes db.find (rs f) := by
    rw [← h.free, ← hfree, h'.free, hfind]
  have hpoint := pointed_of_dead_filter (fun x _ => x.2.size_pos) hdead hr hp
  -- The index of the other one leads only to what that has seen.
  obtain ⟨r', hr', -, -, hentry, -⟩ := h'.reflects.live r.2.key _ (hfind ▸ hpoint)
  have hloc : r'.1 = r.1 := congrArg Dir.loc hentry
  have hid : r'.1.id = f := hloc ▸ h.located f r hr
  simp only [Set.mem_ofPred_eq, hid, List.mem_filter] at hr'
  obtain rfl := h.eq_of_loc hr'.1 hr hloc
  rw [hp] at hr'
  cases hr'.2

end DBImpl

namespace Session

variable {s : Session} {es : List Event}

/-- Calls are within the limits of the format, and no file is removed that is still needed. -/
def Upkeep (opt : Options) (s : Session) : Event → Prop
  | .act a => Maintained opt s a
  | .restart => True

/-- The invariant at the end of a run with restarts. -/
theorem exists_inv_of_lives (hname : name.length < 2 ^ 16)
    (hupkeep : ∀ s₀, fresh opt name = some s₀ → Meets (eventStep opt name) (Upkeep opt) s₀ es)
    (hlives : Lives opt name es s) :
    ∃ L, Inv opt s L ∧ s.db.fileManager.metadata.name = name := by
  obtain ⟨s₀, hs₀, hrun⟩ := hlives
  refine hrun.invariant
    (P := fun s => ∃ L, Inv opt s L ∧ s.db.fileManager.metadata.name = name)
    (hupkeep s₀ hs₀) ⟨_, Inv.fresh hs₀, ?_⟩ ?_
  · rw [(fresh_db hs₀).1]
    exact MetadataManager.createFile_name
  · rintro t (a | _) u ⟨L, hinv, hn⟩ hg hstep
    · obtain ⟨L', he⟩ := hinv.effect hg.1 hstep
      exact ⟨L', hinv.step he hg.2, he.name.trans hn⟩
    · -- A restart begins with the records of the registered files.
      simp only [eventStep, restart] at hstep
      split_ifs at hstep
      have hdisk := FileManager.disk_holds hinv.sound.holds hinv.sound.indexed
        hinv.sound.registered (hn.symm ▸ hname)
      obtain ⟨db, rest, hopen, hre, o, hfm⟩ := hdisk.openDb_eq opt name ReadBuffer.empty
      rw [hopen, Option.map_some, Option.some.injEq] at hstep
      subst hstep
      refine ⟨_, ⟨hre.sound, fun id e he => ?_, trivial⟩, ?_⟩
      · simp only [Log.restrict] at he
        split_ifs at he
        · exact hinv.written id e he
        · cases he
      · simp only [hfm, hdisk.openActive_eq]
        exact hn

/-- After any run of calls and restarts, and at any point of a compaction, the process stops and
some index files are lost. The database opens with the same index and the same counters as if
they were there exactly if none of them belongs to a full data file. -/
theorem lost_iff_full (hname : name.length < 2 ^ 16)
    (hupkeep : ∀ s₀, fresh opt name = some s₀ → Meets (eventStep opt name) (Upkeep opt) s₀ es)
    (hlives : Lives opt name es s) (ids : Finset ℕ) (buffer : ReadBuffer) :
    ∃ db rest db' rest',
      DBImpl.openDb opt .sound name s.db.fileManager.disk buffer = some (.kOk, db, rest) ∧
      DBImpl.openDb opt .sound name (s.db.fileManager.disk.without ids) buffer =
        some (.kOk, db', rest') ∧
      (((∀ key, db'.find key = db.find key) ∧
          ∀ f, (db'.fileStates f).free_bytes = (db.fileStates f).free_bytes) ↔
        ∀ id ∈ ids, id ∈ s.db.fileManager.metadata.files →
          (s.db.fileManager.indexFiles id).isSome →
            totalSize (s.db.fileManager.log id) ≠ kMaxFileBytes) := by
  obtain ⟨L, hinv, hn⟩ := exists_inv_of_lives hname hupkeep hlives
  have hdisk := FileManager.disk_holds hinv.sound.holds hinv.sound.indexed
    hinv.sound.registered (hn.symm ▸ hname)
  obtain ⟨db, rest, hopen, hre, -⟩ := hdisk.openDb_eq opt name buffer
  obtain ⟨db', rest', hopen', hre', -⟩ := (hdisk.without ids).openDb_eq opt name buffer
  have hlog : s.db.fileManager.log = L := hinv.sound.holds.log_eq
  have hfits : ∀ id, totalSize (L.restrict s.db.fileManager.metadata.files id) ≤ kMaxFileBytes :=
    fun id => (hdisk.records id).fits
  refine ⟨db, rest, db', rest', hopen, hopen', ?_⟩
  constructor
  · rintro ⟨hfind, hfree⟩ id hid hmem hsome
    have hrecovers := hre'.recovers
    rw [show (L.restrict s.db.fileManager.metadata.files).recovered
      (s.db.fileManager.disk.without ids).indexFiles = fun id => _ from
        funext fun _ => Log.recovered_without] at hrecovers
    have hsame := hre.recovers.filter_eq hrecovers (funext hfind) hfree id
    rw [← Log.recovered_without] at hsame
    have hroom := (Log.recovered_without_iff (hfits id)).mp hsame hid hsome
    rwa [Log.restrict, if_pos hmem, ← hlog] at hroom
  · intro hroom
    have hsame : (L.restrict s.db.fileManager.metadata.files).recovered
        (s.db.fileManager.disk.without ids).indexFiles =
          (L.restrict s.db.fileManager.metadata.files).recovered
            s.db.fileManager.disk.indexFiles := by
      funext id
      refine (Log.recovered_without_iff (hfits id)).mpr fun hid hsome => ?_
      rw [Log.restrict]
      split_ifs with hmem
      · exact hlog ▸ hroom id hid hmem hsome
      · exact Nat.ne_of_lt (by decide)
    have hrecovers := hre'.recovers
    rw [hsame] at hrecovers
    obtain ⟨hfind, hfree⟩ := hre.recovers.unique hrecovers
    exact ⟨congrFun hfind, hfree⟩

end Session

end

namespace Session

open scoped Reference

/-- A data file is sealed, and the executor writes its index file, which is then lost. -/
theorem lost_iff_full_mixing : ∃ es s bytes db rest db' rest',
    Lives Reference.options [] es s ∧ s.db.fileManager.indexFiles 1 = some bytes ∧ bytes ≠ [] ∧
      (s.db.fileManager.disk.without {1}).indexFiles 1 = none ∧
      DBImpl.openDb Reference.options .sound [] s.db.fileManager.disk ReadBuffer.empty =
        some (.kOk, db, rest) ∧
      DBImpl.openDb Reference.options .sound [] (s.db.fileManager.disk.without {1})
        ReadBuffer.empty = some (.kOk, db', rest') ∧
      (∀ key, db'.find key = db.find key) ∧
        ∀ f, (db'.fileStates f).free_bytes = (db.fileStates f).free_bytes := by
  obtain ⟨rest, hlen⟩ := exists_value (kMaxFileBytes - 96)
  obtain ⟨s₀, t, L, hs₀, hdb, hwrote, ht⟩ :=
    exists_wrote [] (placed_mixing hlen)
  have hfm := hwrote.files
  rw [hdb] at hfm
  have htasks : t.db.fileManager.tasks = [.syncFile 1, .createIndexFile 1] := by
    rw [hfm]
    rfl
  have hnone : t.db.fileManager.indexFiles 1 = none := by
    rw [hfm]
    rfl
  -- The task of the sealed file runs.
  have hlog : t.db.fileManager.indexLogs 1 ≠ [] := by
    rw [(ht.inv.sound.indexed.tasks 1 (by simp [htasks])).2, Ne, packLog_eq_nil_iff, hwrote.log]
    simp [mixing, Log.add]
  have hrun : t.db.fileManager.runTask 1 = some { t.db.fileManager with
      tasks := [.syncFile 1]
      indexFiles := Function.update t.db.fileManager.indexFiles 1
        (some (t.db.fileManager.indexLogs 1)) } := by
    simp [FileManager.runTask, htasks, FileManager.createIndexFile, hlog, hnone]
  obtain ⟨s, hstep, hfile⟩ : ∃ s, step Reference.options t (.task 1) = some s ∧
      s.db.fileManager.indexFiles 1 = some (t.db.fileManager.indexLogs 1) :=
    ⟨_, congrArg (Option.map _) hrun, by simp⟩
  obtain ⟨L', -, hs⟩ := ht.step (a := .task 1) ⟨trivial, trivial⟩ hstep
  have hmeets : Meets (step Reference.options) (Maintained Reference.options) s₀
      ((mixing (1 :: rest)).map (fun r => .write r.2) ++ [.task 1]) :=
    (meets_concat hwrote.run).mpr
      ⟨hwrote.careful.mono fun _ _ hg => ⟨hg.1, hg.2.1⟩, trivial, trivial⟩
  have hrun' : Run (step Reference.options) s₀
      ((mixing (1 :: rest)).map (fun r => .write r.2) ++ [.task 1]) s :=
    run_concat.mpr ⟨t, hwrote.run, hstep⟩
  have hlives : Lives Reference.options [] _ s := ⟨s₀, hs₀, (run_map (f := Event.act)).mpr hrun'⟩
  obtain ⟨db, rest, db', rest', hopen, hopen', hiff⟩ := lost_iff_full (by decide)
    (fun s₁ hs₁ => Option.some_inj.mp (hs₀.symm.trans hs₁) ▸ meets_map.mpr hmeets) hlives {1}
    ReadBuffer.empty
  have hsame := hiff.mpr fun id _ _ _ => by
    rw [hs.inv.sound.holds.log_eq]
    exact (hs.room id).ne
  exact ⟨_, s, _, db, rest, db', rest', hlives, hfile, hlog, by simp [Disk.without], hopen,
    hopen', hsame⟩

end Session
end PedroDB
