import PedroDB.Reference
import PedroDB.Session

/-!
# Read your writes

As long as nothing is compacted, every `Get` answers with the last value that was put,
through the read cache and without it, for every position of a record but one: a record
that ends exactly at the end of its file is not found by the direct read.

## Main definitions

* `Session.expected` — the answer that is due to a `Get`
* `Session.Answers` — the index holds what was written

## Main results

* `Session.get_eq_expected_iff` — `Get` answers as it should exactly if the read is not
  one of a record at the very end of its file
* `Session.get_ne_expected` — such a read reports `kCorruption`
-/

namespace PedroDB.Session

open Transition

/-- The answer that is due to a `Get` after a run. -/
def expected (as : List Action) (key : Key) : Reply :=
  match written as key with
  | none => ⟨.kNotFound, none⟩
  | some value => ⟨.kOk, some value⟩

section

variable [Platform] {opt : Options} {name : Bytes} {as : List Action} {s s' : Session}
  {a : Action} {L L' : Log} {key : Key}

/-- Keys have at most 255 bytes, records fit a data file, and the file ids do not run
out. -/
def InLimits (opt : Options) (s : Session) : Action → Prop
  | .write w =>
    w.key.length ≤ 255 ∧ (DBImpl.entryOf opt w).size ≤ kMaxFileBytes ∧
      ¬ s.db.fileManager.Wraps (DBImpl.entryOf opt w)
  | _ => True

instance (s : Session) : (a : Action) → Decidable (InLimits opt s a)
  | .write w =>
    inferInstanceAs (Decidable (w.key.length ≤ 255 ∧ (DBImpl.entryOf opt w).size ≤ kMaxFileBytes ∧
      ¬ s.db.fileManager.Wraps (DBImpl.entryOf opt w)))
  | .get _ _ | .compact | .block | .task _ => .isTrue trivial

theorem InLimits.within (h : InLimits opt s a) (ha : a.IsAccess) : Within opt s a := by
  cases a with
  | write w =>
    obtain ⟨hkey, hsize, hwrap⟩ := h
    refine ⟨⟨hkey, hsize.trans_lt ?_⟩, fun _ => hwrap⟩
    rw [kMaxFileBytes]
    omega
  | block => exact ha.elim
  | _ => trivial

/-- The index points at what was written, and no newer file is written to than it knows. -/
structure Answers (opt : Options) (s : Session) (L : Log) (as : List Action) : Prop where
  inv : Inv opt s L
  idle : s.Quiescent
  cache : s.db.fileManager.CacheOk s.db.readCache
  max : s.db.maxFile = s.db.fileManager.activeFileId
  absent : ∀ key, s.db.find key = none → written as key = none
  live : ∀ key dir, s.db.find key = some dir → ∃ w, Located L dir.loc (DBImpl.entryOf opt w) ∧
    dir.entry_size = (DBImpl.entryOf opt w).size ∧ written as key = some w.value

namespace Answers

theorem fresh (h : fresh opt name = some s) : Answers opt s (fun _ => []) [] := by
  obtain ⟨hdb, hidle⟩ := fresh_db h
  refine ⟨Inv.fresh h, hidle, hdb ▸ newDb_cacheOk, by rw [hdb]; rfl, fun _ _ => rfl, ?_⟩
  intro key dir hfind
  rw [hdb] at hfind
  simp [DBImpl.find, newDb, DBImpl.create] at hfind

/-- Every read through the cache is one of a sealed file. -/
theorem settledRead (h : Answers opt s L as) : SettledRead opt s a := by
  cases a with
  | get use_read_cache key =>
    simp only [SettledRead]
    split
    · trivial
    · next dir hfind =>
      rcases hdirect : DBImpl.directlyRead opt use_read_cache dir s.db with _ | _
      · refine Or.inr (Or.inl fun hid => ?_)
        simp [DBImpl.directlyRead, h.max, hid] at hdirect
      · exact Or.inl rfl
  | _ => trivial

/-- Changes that leave the index, the log and the active file alone. -/
theorem congr (h : Answers opt s L as) (hinv : Inv opt s' L) (hidle : s'.Quiescent)
    (hcache : s'.db.fileManager.CacheOk s'.db.readCache)
    (hindices : s'.db.indices = s.db.indices) (hmax : s'.db.maxFile = s.db.maxFile)
    (hactive : s'.db.fileManager.activeFileId = s.db.fileManager.activeFileId)
    (hwritten : ∀ key, written (as ++ [a]) key = written as key) :
    Answers opt s' L (as ++ [a]) := by
  have hfind : ∀ key, s'.db.find key = s.db.find key := fun key => by
    rw [DBImpl.find, hindices]
    rfl
  refine ⟨hinv, hidle, hcache, by rw [hmax, hactive, h.max], ?_, ?_⟩
  · intro key hkey
    rw [hwritten]
    exact h.absent key (hfind key ▸ hkey)
  · intro key dir hkey
    rw [hwritten]
    exact h.live key dir (hfind key ▸ hkey)

theorem step (h : Answers opt s L as) (hlimits : InLimits opt s a) (ha : a.IsAccess)
    (he : Effect opt s L a s' L') : Answers opt s' L' (as ++ [a]) := by
  have hcache' := he.cacheOk h.inv h.cache h.settledRead
  have hinv' := h.inv.step he (by cases a <;> trivial)
  cases he with
  | refused _ hbig => exact absurd hlimits.2.1 (Nat.not_le.mpr hbig)
  | @write w hidle hs hwrap =>
    refine ⟨hinv', hidle, hcache', ?_, ?_, ?_⟩
    · -- The write may have rolled over.
      have hle : s.db.fileManager.activeFileId ≤
          (s.db.fileManager.appended (DBImpl.entryOf opt w)).activeFileId :=
        FileManager.activeFileId_le_appended
      rw [DBImpl.updateIndex_maxFile, DBImpl.updateIndex_fileManager, FileManager.nextLoc_id, h.max]
      exact Nat.max_eq_right hle
    · -- A key that is absent was deleted last, or never written.
      intro key hkey
      rw [DBImpl.find_updateIndex] at hkey
      rw [written_write]
      split_ifs at hkey ⊢ with h1 h2
      · rfl
      · exact h.absent key hkey
    · -- A key that is there was written last.
      intro key dir hkey
      rw [DBImpl.find_updateIndex] at hkey
      rw [written_write]
      split_ifs at hkey ⊢ with h1 h2
      · obtain rfl := Option.some_inj.mp hkey
        have hloc := located_endOf L (s.nextLoc (DBImpl.entryOf opt w)).id (DBImpl.entryOf opt w)
        rw [← h.inv.sound.holds.nextLoc_eq] at hloc
        exact ⟨w, hloc, hs.sizeOf_eq, rfl⟩
      · obtain ⟨w', hloc, hsize, hw'⟩ := h.live key dir hkey
        exact ⟨w', hloc.add _ _, hsize, hw'⟩
  | get hidle hdb =>
    subst hdb
    exact h.congr hinv' hidle hcache' rfl rfl rfl fun key => by simp [written]
  | compact => exact ha.elim
  | read => exact ha.elim
  | append => exact ha.elim
  | install => exact ha.elim
  | finish => exact ha.elim
  | task hrun =>
    obtain ⟨tasks, indexFiles, rfl⟩ := FileManager.runTask_eq hrun
    exact h.congr hinv' h.idle hcache' rfl rfl rfl fun key => by simp [written]

/-- `Get` returns, with the answer that is due unless the read hides the record. -/
theorem handleGet_eq (h : Answers opt s L as) (use_read_cache : Bool) (key : Key) :
    ∃ db buffer, s.db.handleGet opt use_read_cache key s.buffer =
      some (if s.db.hiddenRead opt use_read_cache key then ⟨.kCorruption, none⟩
        else expected as key, db, buffer) := by
  rcases hfind : s.db.find key with _ | dir
  · refine ⟨s.db, s.buffer, ?_⟩
    simp [DBImpl.handleGet_none hfind, DBImpl.hiddenRead, hfind, expected, h.absent key hfind]
  · obtain ⟨w, hloc, hsize, hw⟩ := h.live key dir hfind
    have hsettled := settled_of_settledRead
      (h.settledRead (a := .get use_read_cache key)) hfind (h.inv.sound.id_le_active hfind)
    obtain ⟨db, rest, heq, -⟩ := h.inv.sound.handleGet_some opt use_read_cache s.buffer h.cache
      hfind hloc hsize hsettled
    exact ⟨db, rest, by rw [heq, expected, hw, DBImpl.replyOf_entryOf]⟩

/-- A write within the limits returns. -/
theorem exists_write (h : Answers opt s L as) {w : Write} (hlimits : InLimits opt s (.write w)) :
    ∃ s', Session.step opt s (.write w) = some s' := by
  obtain ⟨hkey, hsize, hwrap⟩ := hlimits
  have hs := DBImpl.entryOf_storable hkey hsize
  rw [Session.step, if_pos h.idle, h.inv.sound.handlePut_eq hs hwrap, Option.map_some]
  exact ⟨_, rfl⟩

end Answers

/-- All along a run of accesses the index holds what was written. -/
theorem answers (haccess : ∀ a ∈ as, a.IsAccess) (hlimits : Guarded opt (InLimits opt) name as)
    (hreach : Reaches opt name as s) : ∃ L, Answers opt s L as := by
  obtain ⟨s₀, hs₀, hrun⟩ := hreach
  have hmeets : Meets (step opt) (fun s a => InLimits opt s a ∧ a.IsAccess) s₀ as := by
    rintro pre a post t rfl hpre
    exact ⟨hlimits s₀ hs₀ pre a post t rfl hpre, haccess a (by simp)⟩
  refine hrun.history (P := fun as s => ∃ L, Answers opt s L as) hmeets ⟨_, Answers.fresh hs₀⟩ ?_
  rintro as t a u ⟨L, h⟩ ⟨hl, ha⟩ hstep
  obtain ⟨L', he⟩ := h.inv.effect (hl.within ha) hstep
  exact ⟨L', h.step hl ha he⟩

/-- After any run of writes and reads every write returns, and so does every `Get`, with
the answer that is due exactly if it does not read directly a record that ends at the
very end of its file. -/
theorem get_eq_expected_iff (haccess : ∀ a ∈ as, a.IsAccess)
    (hlimits : Guarded opt (InLimits opt) name as) (hreach : Reaches opt name as s) :
    (∀ w, InLimits opt s (.write w) → ∃ s', step opt s (.write w) = some s') ∧
      ∀ use_read_cache key, ∃ reply db buffer,
        s.db.handleGet opt use_read_cache key s.buffer = some (reply, db, buffer) ∧
          (reply = expected as key ↔ s.db.hiddenRead opt use_read_cache key = false) := by
  obtain ⟨L, h⟩ := answers haccess hlimits hreach
  refine ⟨fun w hw => h.exists_write hw, fun use_read_cache key => ?_⟩
  obtain ⟨db, buffer, hget⟩ := h.handleGet_eq use_read_cache key
  refine ⟨_, db, buffer, hget, ?_⟩
  cases s.db.hiddenRead opt use_read_cache key with
  | false => simp
  | true =>
    have : (⟨.kCorruption, none⟩ : Reply) ≠ expected as key := by
      unfold expected
      split <;> simp
    simp [this]

end

open scoped Reference

/-- A key is put, read, and deleted. -/
def putGetDelete : List Action :=
  [.write (.put [107] [118]), .get true [107], .write (.delete [107])]

theorem get_eq_expected_putGetDelete : ∃ s, Reaches Reference.options [] putGetDelete s ∧
    ∀ use_read_cache key, ∃ reply db buffer,
      s.db.handleGet Reference.options use_read_cache key s.buffer = some (reply, db, buffer) ∧
        (reply = expected putGetDelete key ↔
          s.db.hiddenRead Reference.options use_read_cache key = false) := by
  obtain ⟨s₀, hs₀, -⟩ := exists_fresh Reference.options []
  have hsome : ((Session.fresh Reference.options []).bind fun s =>
      putGetDelete.foldlM (step Reference.options) s).isSome := by decide +kernel
  rw [hs₀] at hsome
  obtain ⟨s, hs⟩ := Option.isSome_iff_exists.mp hsome
  exact ⟨s, ⟨s₀, hs₀, hs⟩,
    (get_eq_expected_iff (by decide) (guarded_of_check (by decide +kernel)) ⟨s₀, hs₀, hs⟩).2⟩

/-- A value that, put under a key of one byte, makes a record as long as a data file. -/
def fillingValue : Bytes := List.replicate (kMaxFileBytes - 15) 1

/-- A single `Put` fills the first data file to its very end. -/
theorem exists_filled : ∃ w : Write, w.key = [107] ∧ w.value ≠ [] ∧ ∃ s L dir,
    Guarded Reference.options (InLimits Reference.options) [] [.write w] ∧
      Reaches Reference.options [] [.write w] s ∧ Answers Reference.options s L [.write w] ∧
      s.db.find [107] = some dir ∧ dir.loc.id = 1 ∧ s.db.fileManager.activeFileId = 1 ∧
      dir.loc.offset + dir.entry_size = kMaxFileBytes := by
  obtain ⟨s₀, hs₀, hdb, -⟩ := exists_fresh Reference.options []
  obtain ⟨value, hvalue⟩ : ∃ value, value = fillingValue := ⟨_, rfl⟩
  have hlen : value.length = kMaxFileBytes - 15 := by
    rw [hvalue, fillingValue, List.length_replicate]
  have hne : value ≠ [] := by
    rintro rfl
    simp [kMaxFileBytes] at hlen
  -- The record has exactly the size of a file.
  have hsize : (DBImpl.entryOf Reference.options (.put [107] value)).size = kMaxFileBytes := by
    simp only [Entry.size, DBImpl.entryOf, Write.put, DBImpl.stored, Reference.options, hlen,
      Header.sizeOf, Bool.false_eq_true, if_false, List.length_singleton, kMaxFileBytes]
  have hoffset : s₀.db.fileManager.activeOffset = 0 := by
    rw [hdb]
    rfl
  have hid : s₀.db.fileManager.activeFileId = 1 := by
    rw [hdb]
    rfl
  have hfits : s₀.db.fileManager.Fits (DBImpl.entryOf Reference.options (.put [107] value)) := by
    rw [FileManager.Fits, hoffset, hsize, Nat.zero_add]
  have hlimits : InLimits Reference.options s₀ (.write (.put [107] value)) :=
    ⟨show ([107] : Bytes).length ≤ 255 by decide, hsize.le, fun hwrap => hwrap.1 hfits⟩
  have h₀ := Answers.fresh hs₀
  obtain ⟨s, hs⟩ := h₀.exists_write hlimits
  obtain ⟨L, he⟩ := h₀.inv.effect (hlimits.within trivial) hs
  have h := h₀.step hlimits trivial he
  refine ⟨.put [107] value, rfl, hne, s, L, ?_⟩
  -- The write is within the limits.
  have hguarded : Guarded Reference.options (InLimits Reference.options) []
      [.write (.put [107] value)] := by
    intro s₁ hs₁
    obtain rfl := Option.some_inj.mp (hs₀.symm.trans hs₁)
    exact meets_cons.mpr ⟨hlimits, fun _ _ => meets_nil⟩
  have hreach : Reaches Reference.options [] [.write (.put [107] value)] s :=
    ⟨s₀, hs₀, run_cons.mpr ⟨s, hs, run_nil.mpr rfl⟩⟩
  have hnext : s₀.nextLoc (DBImpl.entryOf Reference.options (.put [107] value)) = ⟨1, 0⟩ := by
    rw [nextLoc, FileManager.nextLoc, if_pos hfits, hoffset, hid]
  -- It is not refused, and it starts the file.
  cases he with
  | refused _ hbig => exact absurd hbig (by rw [hsize]; exact Nat.lt_irrefl _)
  | write _ hstorable _ =>
    have hfind := @DBImpl.find_updateIndex _ Reference.options
      (s₀.appended (DBImpl.entryOf Reference.options (.put [107] value))) (.put [107] value)
      (s₀.nextLoc (DBImpl.entryOf Reference.options (.put [107] value))) [107]
    rw [if_pos (show [107] = (Write.put [107] value).key from rfl),
      if_neg (show (Write.put [107] value).value ≠ [] from hne)] at hfind
    refine ⟨_, hguarded, hreach, h, hfind, ?_, ?_, ?_⟩
    · rw [hnext]
    · rw [DBImpl.updateIndex_fileManager, ← FileManager.nextLoc_id]
      exact congrArg Location.id hnext
    · rw [hnext, hstorable.sizeOf_eq, hsize]
      exact Nat.zero_add _

/-- After a single `Put` the direct `Get` of the key need not find it. -/
theorem get_ne_expected : ∃ as s use_read_cache key reply db buffer,
    (∀ a ∈ as, a.IsAccess) ∧ Guarded Reference.options (InLimits Reference.options) [] as ∧
      Reaches Reference.options [] as s ∧
      s.db.handleGet Reference.options use_read_cache key s.buffer = some (reply, db, buffer) ∧
      reply.status = .kCorruption ∧ (expected as key).status = .kOk := by
  obtain ⟨w, hkey, hvalue, s, L, dir, hguarded, hreach, h, hfind, -, -, hend⟩ := exists_filled
  have hhidden : s.db.hiddenRead Reference.options false [107] = true := by
    simp [DBImpl.hiddenRead, hfind, DBImpl.directlyRead, hend]
  obtain ⟨db, buffer, hget⟩ := h.handleGet_eq false [107]
  refine ⟨[.write w], s, false, [107], _, db, buffer, ?_, hguarded, hreach, hget, ?_, ?_⟩
  · simp [Action.IsAccess]
  · rw [hhidden]
    rfl
  · have hw : written [.write w] [107] = some w.value :=
      (@written_write [] w [107]).trans (by simp [hkey, hvalue])
    rw [expected, hw]

end PedroDB.Session
