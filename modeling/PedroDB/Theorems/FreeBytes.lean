import PedroDB.Reference
import PedroDB.Restart

/-!
# The count of dead bytes

The `free_bytes` of a file are the bytes of its records that no index entry points at, and
a restart counts the same, as long as no present key is deleted: `HandlePut` counts the
record that a deletion makes dead, but not its tombstone.

## Main definitions

* `Session.Deletes` — a deletion of a present key
* `Session.Counting` — the condition on the steps of a run
* `Session.Counted` — the counters are exact

## Main results

* `Session.Counted.step`, `Session.Counted.restart` — the counters stay exact
* `Session.free_eq_deadBytes` — they are exact all along a run
* `Session.free_ne_deadBytes` — a run after which one is not
-/

namespace PedroDB.Session

open Transition LastWriter

section

variable [Platform] {opt : Options} {name : Bytes} {as : List Event} {s s' : Session}
  {a : Action} {L L' : Log}

/-- The step deletes a key that is there. -/
def Deletes (s : Session) : Action → Prop
  | .write w => w.value = [] ∧ s.db.find w.key ≠ none
  | _ => False

instance (s : Session) : (a : Action) → Decidable (Deletes s a)
  | .write w => inferInstanceAs (Decidable (w.value = [] ∧ s.db.find w.key ≠ none))
  | .get _ _ | .compact | .block | .task _ => .isFalse id

/-- Records are within their limits, no file is removed that is still needed, no present
key is deleted, and the recovery sees all records. -/
def Counting (opt : Options) (s : Session) : Event → Prop
  | .act a => Maintained opt s a ∧ ¬ Deletes s a
  | .restart => Unfilled s.db.fileManager

/-- The size of a copy that the index does not point at yet. -/
def pendingBytes (f : ℕ) : Compaction → ℕ
  | .install _ _ next loc => if f = loc.id then next.size else 0
  | _ => 0

omit [Platform] in
@[simp] theorem pendingBytes_idle (f : ℕ) : pendingBytes f .idle = 0 := rfl

omit [Platform] in
theorem pendingBytes_of_not_install {c : Compaction} (f : ℕ)
    (h : ∀ id it next loc, c ≠ .install id it next loc) : pendingBytes f c = 0 := by
  cases c with
  | install id it next loc => exact absurd rfl (h id it next loc)
  | _ => rfl

/-- The registered records. -/
abbrev kept (s : Session) (L : Log) : Log := L.restrict s.db.fileManager.metadata.files

/-- The counters are exact, but for the file that is being compacted, and a key whose
record is registered is there. -/
structure Counted (opt : Options) (name : Bytes) (s : Session) (L : Log) : Prop where
  inv : Inv opt s L
  newest : Newest s L
  copying : Copying s L
  name : s.db.fileManager.metadata.name = name
  present : ∀ loc e, Located (s.kept L) loc e → e.type = .kSet → s.db.find e.key ≠ none
  free : ∀ f, ¬ Passing f s.compaction →
    (s.db.fileStates f).free_bytes + pendingBytes f s.compaction =
      DBImpl.deadBytes s.db.find ((s.kept L).records f)

namespace Counted

theorem fresh (h : Session.fresh opt name = some s) : Counted opt name s fun _ => [] := by
  obtain ⟨hdb, -, hidle⟩ := fresh_db h
  refine ⟨Inv.fresh h, Newest.fresh h, Copying.of_idle hidle, ?_, ?_, fun f _ => ?_⟩
  · rw [hdb]
    exact MetadataManager.createFile_name
  · intro loc e hloc
    exact absurd (located_restrict_iff.mp hloc).2.mem List.not_mem_nil
  · have hrecords : (s.kept fun _ => []).records f = [] := by
      simp [Log.records, Log.restrict, Framing.frames, Framing.framesFrom]
    rw [hrecords, hidle, hdb]
    rfl

/-- A record that the index does not point at is added to the dead bytes. -/
theorem deadBytes_add (h : Counted opt name s L) (e : Entry) (f : ℕ) :
    DBImpl.deadBytes s.db.find (((s.kept L).add (s.nextLoc e).id e).records f) =
      DBImpl.deadBytes s.db.find ((s.kept L).records f) +
        if f = (s.nextLoc e).id then e.size else 0 := by
  rw [Log.records_add]
  split_ifs with hf
  · rw [DBImpl.deadBytes_concat, endOf_restrict h.inv.sound, if_neg]
    intro hfind
    obtain ⟨x, hloc, -⟩ := h.inv.sound.pointed _ _ hfind
    exact lt_irrefl _ (lt_nextLoc h.inv.sound (h.inv.sound.kept _ _ hfind) hloc)
  · rfl

variable {w : Write} {db : DBImpl}

/-- A write that does not delete a present key. -/
theorem free_write (h : Counted opt name s L) (hidle : s.compaction = .idle)
    (hs : (DBImpl.entryOf opt w).Storable)
    (hwrap : ¬ s.db.fileManager.Wraps (DBImpl.entryOf opt w))
    (hdb : db = (DBImpl.updateIndex opt w (s.nextLoc (DBImpl.entryOf opt w))
      (s.appended (DBImpl.entryOf opt w))).2)
    (hsound : db.Sound (L.add (s.nextLoc (DBImpl.entryOf opt w)).id (DBImpl.entryOf opt w)))
    (hdeletes : ¬ Deletes s (.write w)) (f : ℕ) :
    (db.fileStates f).free_bytes = DBImpl.deadBytes db.find
      (((s.kept L).add (s.nextLoc (DBImpl.entryOf opt w)).id (DBImpl.entryOf opt w)).records f) := by
  have hfm : db.fileManager = s.db.fileManager.appended (DBImpl.entryOf opt w) := by
    rw [hdb, DBImpl.updateIndex_fileManager]
  have hfind : ∀ key, db.find key = if key = w.key then
      if w.value = [] then none else
        some ⟨(DBImpl.entryOf opt w).size, s.nextLoc (DBImpl.entryOf opt w)⟩
      else s.db.find key := by
    intro key
    rw [hdb, DBImpl.find_updateIndex, hs.sizeOf_eq]
    rfl
  have hrestrict := restrict_appended h.inv.sound (DBImpl.entryOf opt w)
  have hcat := (h.inv.sound.appended hs hwrap).catalogued_restrict
  have hcat' := hsound.catalogued_restrict
  rw [hfm, hrestrict] at hcat'
  -- The dead bytes after the write, against the dead bytes before it.
  have hswap : DBImpl.deadBytes db.find (((s.kept L).add (s.nextLoc (DBImpl.entryOf opt w)).id
        (DBImpl.entryOf opt w)).records f) + db.replaced w.key f =
      DBImpl.deadBytes s.db.find (((s.kept L).add (s.nextLoc (DBImpl.entryOf opt w)).id
        (DBImpl.entryOf opt w)).records f) + s.db.replaced w.key f := by
    rw [hrestrict] at hcat
    exact hcat.deadBytes_swap w.key hcat' (fun k hk => (hfind k).trans (if_neg hk)) f
  have hadd := h.deadBytes_add (DBImpl.entryOf opt w) f
  have hold := h.free f (by rw [hidle]; exact not_false)
  rw [hidle, pendingBytes_idle] at hold
  -- What the write counts as unused.
  have hnew : (db.fileStates f).free_bytes =
      (s.db.fileStates f).free_bytes + s.db.replaced w.key f +
        if (w.value = [] ∧ s.db.find w.key = none) ∧
          f = (s.nextLoc (DBImpl.entryOf opt w)).id then (DBImpl.entryOf opt w).size else 0 := by
    rw [hdb, ← hs.sizeOf_eq]
    exact DBImpl.free_updateIndex opt w (s.nextLoc (DBImpl.entryOf opt w))
      (s.appended (DBImpl.entryOf opt w)) f
  have hnow := hfind w.key
  rw [if_pos rfl] at hnow
  -- A delete of an absent key counts its own tombstone, and no other delete is allowed.
  by_cases hv : w.value = []
  · have habsent : s.db.find w.key = none := by
      by_contra hfound
      exact hdeletes ⟨hv, hfound⟩
    rw [if_pos hv] at hnow
    simp only [hv, habsent, and_self, true_and] at hnew
    rw [DBImpl.replaced_of_none hnow, DBImpl.replaced_of_none habsent] at hswap
    rw [DBImpl.replaced_of_none habsent] at hnew
    omega
  · -- A put counts the record that it replaces.
    rw [if_neg hv] at hnow
    rw [DBImpl.replaced_of_some hnow] at hswap
    simp only [hv, false_and, if_false] at hnew
    dsimp only at hswap
    omega

/-- Steps that leave the index and the registered records alone. -/
theorem free_congr (s' : Session) (h : Counted opt name s L) (hfind : s'.db.find = s.db.find)
    (hmetadata : s'.db.fileManager.metadata = s.db.fileManager.metadata)
    (hfree : ∀ f, (s'.db.fileStates f).free_bytes = (s.db.fileStates f).free_bytes)
    (hpassing : ∀ f, Passing f s.compaction → Passing f s'.compaction)
    (hpending : ∀ f, pendingBytes f s'.compaction = pendingBytes f s.compaction) (f : ℕ)
    (hf : ¬ Passing f s'.compaction) :
    (s'.db.fileStates f).free_bytes + pendingBytes f s'.compaction =
      DBImpl.deadBytes s'.db.find ((s'.kept L).records f) := by
  rw [hfree, hpending, hfind, kept, hmetadata]
  exact h.free f fun hp => hf (hpassing f hp)

/-- The counters after a step. -/
theorem free_step (h : Counted opt name s L) (hg : ¬ Deletes s a) (hinv' : Inv opt s' L')
    (he : Effect opt s L a s' L') (hstep : Session.step opt s a = some s') (f : ℕ)
    (hf : ¬ Passing f s'.compaction) :
    (s'.db.fileStates f).free_bytes + pendingBytes f s'.compaction =
      DBImpl.deadBytes s'.db.find ((s'.kept L').records f) := by
  cases he with
  | refused => exact h.free f hf
  | @write w hidle hs hwrap =>
    have hfree := h.free_write hidle.2 hs hwrap rfl hinv'.sound hg f
    have hpending : pendingBytes f s.compaction = 0 := by rw [hidle.2, pendingBytes_idle]
    dsimp only [kept] at hfree ⊢
    rw [hpending, Nat.add_zero, hfree, DBImpl.updateIndex_fileManager,
      restrict_appended h.inv.sound]
  | get hidle hdb =>
    subst hdb
    exact h.free_congr _ rfl rfl (fun _ => rfl) (fun _ hp => hp) (fun _ => rfl) f hf
  | @compact hidle queue =>
    refine h.free_congr { s with queue, db := s.db.pollCompactTask.2 } rfl rfl (fun j => ?_)
      (fun _ hp => hp) (fun _ => rfl) f hf
    simp only [DBImpl.pollCompactTask]
    split_ifs <;> rfl
  | read hreading hnot hdb =>
    obtain ⟨hpassing, hfree, -⟩ := compactBlock_reading hreading hstep
    refine h.free_congr _ (by rw [hdb]; rfl) (by rw [hdb]) hfree hpassing (fun j => ?_) f hf
    -- No copy waits before or after this step.
    rw [pendingBytes_of_not_install j hnot, pendingBytes_of_not_install j]
    intro id it next loc hc
    rw [hc] at hreading
    exact hreading
  | @append id it next hc hwrap hs =>
    have hadd := h.deadBytes_add next f
    have hold := h.free f (by rw [hc]; exact hf)
    rw [hc, pendingBytes_of_not_install f (by simp), Nat.add_zero] at hold
    rw [kept, restrict_appended h.inv.sound]
    exact (congrArg (· + _) hold).trans hadd.symm
  | @install id it next loc hc =>
    have hcopying := h.copying
    unfold Copying at hcopying
    rw [hc] at hcopying
    obtain ⟨dir, hfind, hid, hloc, hlt⟩ := hcopying
    have heq := DBImpl.compactInstall_of_lt hfind hlt
    have hfree : (s.db.compactInstall next loc).fileStates = s.db.fileStates := by rw [heq]
    have hfm := DBImpl.compactInstall_fileManager next loc s.db
    have hfind' : ∀ key, (s.db.compactInstall next loc).find key =
        if key = next.key then some ⟨next.size, loc⟩ else s.db.find key := by
      intro key
      rw [heq, (h.inv.sound.storable hloc).sizeOf_eq]
      exact DBImpl.find_insert
    -- The copy is pointed at, and the record in the file that is compacted no longer.
    have hcat' := hinv'.sound.catalogued_restrict
    dsimp only at hcat'
    rw [hfm] at hcat'
    have hswap := h.inv.sound.catalogued_restrict.deadBytes_swap next.key hcat'
      (fun k hk => (hfind' k).trans (if_neg hk)) f
    -- What the copy replaces is not counted yet.
    have hold := h.free f (by rw [hc]; exact hf)
    have hne : f ≠ dir.loc.id := by
      rintro rfl
      exact hf hid.symm
    rw [DBImpl.replaced_of_some hfind, if_neg hne,
      DBImpl.replaced_of_some ((hfind' next.key).trans (if_pos rfl))] at hswap
    rw [hc] at hold
    dsimp only [kept, pendingBytes] at hold ⊢
    rw [hfree, hfm]
    dsimp only at hswap
    omega
  | @finish id hc =>
    dsimp only [kept, DBImpl.compactFinish, pendingBytes]
    rw [FileManager.removeFile_files, Nat.add_zero]
    -- The file that is removed has no records and no count.
    by_cases hid : f = id
    · subst hid
      have hnone : (L.restrict (s.db.fileManager.metadata.files.erase f)).records f = [] := by
        simp [Log.records, Log.restrict, Framing.frames, Framing.framesFrom]
      rw [hnone, Function.update_self]
      rfl
    · -- The other files keep both.
      have hsame : (L.restrict (s.db.fileManager.metadata.files.erase id)).records f =
          (s.kept L).records f := by
        simp [Log.records, Log.restrict, kept, hid]
      have hold := h.free f (by rw [hc]; exact fun heq => hid heq.symm)
      rw [hc, pendingBytes_of_not_install f (by simp), Nat.add_zero] at hold
      rw [hsame, Function.update_of_ne hid]
      exact hold
  | task hrun =>
    obtain ⟨_, _, rfl⟩ := FileManager.runTask_eq hrun
    exact h.free f hf

/-- A key whose record is registered is there after a step, too. -/
theorem present_step (h : Counted opt name s L) (hg : ¬ Deletes s a)
    (he : Effect opt s L a s' L') : ∀ loc e, Located (s'.kept L') loc e → e.type = .kSet →
      s'.db.find e.key ≠ none := by
  intro loc e hloc htype
  cases he with
  | refused => exact h.present loc e hloc htype
  | @write w hidle hs hwrap =>
    dsimp only [kept] at hloc ⊢
    rw [DBImpl.updateIndex_fileManager, restrict_appended h.inv.sound] at hloc
    rw [DBImpl.find_updateIndex]
    -- The record was there, or is the new one.
    rcases located_add_iff.mp hloc with hold | ⟨-, rfl⟩
    · have hfound := h.present loc e hold htype
      split_ifs with hkey hv
      · exact absurd ⟨hv, hkey ▸ hfound⟩ hg
      · simp
      · exact hfound
    · rw [if_pos (show (DBImpl.entryOf opt w).key = w.key from rfl),
        if_neg (DBImpl.entryOf_kSet.mp htype)]
      simp
  | get _ hdb =>
    subst hdb
    exact h.present loc e hloc htype
  | compact => exact h.present loc e hloc htype
  | read _ _ hdb =>
    subst hdb
    exact h.present loc e hloc htype
  | @append id it next hc =>
    have hcopying := h.copying
    unfold Copying at hcopying
    rw [hc] at hcopying
    obtain ⟨dir, hfind, -⟩ := hcopying
    dsimp only [kept] at hloc
    rw [restrict_appended h.inv.sound] at hloc
    -- A copy has the key of a record that is live.
    rcases located_add_iff.mp hloc with hold | ⟨-, rfl⟩
    · exact h.present loc e hold htype
    · rw [show ({ s.db with fileManager := s.db.fileManager.appended e } : DBImpl).find e.key =
        some dir from hfind]
      simp
  | @install id it next copy hc =>
    dsimp only [kept] at hloc ⊢
    rw [DBImpl.compactInstall_fileManager] at hloc
    rw [DBImpl.find_compactInstall]
    split_ifs
    · simp
    · exact h.present loc e hloc htype
  | finish =>
    dsimp only [kept, DBImpl.compactFinish] at hloc ⊢
    rw [FileManager.removeFile_files] at hloc
    obtain ⟨hmem, hloc⟩ := located_restrict_iff.mp hloc
    exact h.present loc e
      (located_restrict_iff.mpr ⟨Finset.mem_of_mem_erase hmem, hloc⟩) htype
  | task hrun =>
    obtain ⟨_, _, rfl⟩ := FileManager.runTask_eq hrun
    exact h.present loc e hloc htype

/-- The counters stay exact. -/
theorem step (h : Counted opt name s L) (hg : Counting opt s (.act a))
    (hstep : Session.step opt s a = some s') : ∃ L', Counted opt name s' L' := by
  obtain ⟨⟨hwithin, hremoval⟩, hdeletes⟩ := hg
  obtain ⟨L', he⟩ := h.inv.effect hwithin hstep
  have hinv' := h.inv.step he hremoval
  exact ⟨L', hinv', h.newest.step h.inv he, h.copying.step h.inv he hstep, he.name.trans h.name,
    h.present_step hdeletes he, h.free_step hdeletes hinv' he hstep⟩

/-- The recovery sees all records, and rebuilds the index and the counters. -/
theorem reopened (h : Counted opt name s L) (hidle : s.Quiescent)
    (hname : name.length < 2 ^ 16) (hfilled : Unfilled s.db.fileManager) (buffer : ReadBuffer) :
    ∃ db rest, DBImpl.openDb opt .sound name s.db.fileManager.disk buffer =
        some (.kOk, db, rest) ∧
      db.Reopened opt s.db.fileManager.disk (s.kept L) ∧
      db.fileManager.metadata = s.db.fileManager.metadata ∧
      (∀ key, db.find key = s.db.find key) ∧
      ∀ f, (db.fileStates f).free_bytes =
        DBImpl.deadBytes db.find ((s.kept L).records f) := by
  have hlog : s.db.fileManager.log = L := h.inv.sound.holds.log_eq
  -- No record is hidden at the end of a file.
  have hreadable : ∀ loc e, loc.id ∈ s.db.fileManager.metadata.files → Located L loc e →
      s.db.fileManager.Readable loc e :=
    fun loc e hmem hloc => hfilled.readable hmem (hlog ▸ hloc)
  obtain ⟨db, rest, hopen, hre, hmetadata, -, hiff⟩ := h.inv.sound.exists_reopened opt name buffer
    (h.newest.idle hidle) (h.name ▸ hname)
  refine ⟨db, rest, hopen, hre, hmetadata, hiff.mpr ⟨?_, ?_⟩, fun f => ?_⟩
  · intro key dir hfind
    obtain ⟨e, hloc, -⟩ := h.inv.sound.pointed key dir hfind
    exact ⟨e, hreadable _ e (h.inv.sound.kept key dir hfind) hloc⟩
  · rintro loc e ⟨hmem, hloc, -⟩ htype hfind
    exact absurd hfind (h.present loc e (located_restrict_iff.mpr ⟨hmem, hlog ▸ hloc⟩) htype)
  · -- The recovery counts what it replays, which is every record.
    rw [hre.recovers.free]
    congr 1
    unfold Log.recovered
    split_ifs with hindex
    · rfl
    · refine List.filter_eq_self.mpr fun r hr => decide_eq_true ?_
      obtain ⟨hid, hloc⟩ := Log.mem_records_iff.mp hr
      obtain ⟨hmem, hloc⟩ := located_restrict_iff.mp hloc
      rw [← hid] at hindex
      exact (hreadable r.1 r.2 hmem hloc).2.2.resolve_left hindex

theorem restart (h : Counted opt name s L) (hname : name.length < 2 ^ 16)
    (hfilled : Unfilled s.db.fileManager) (hstep : s.restart opt name = some s') :
    ∃ L', Counted opt name s' L' := by
  unfold Session.restart at hstep
  split_ifs at hstep with hidle
  obtain ⟨db, rest, hopen, hre, hmetadata, hfind, hfree⟩ :=
    h.reopened hidle hname hfilled ReadBuffer.empty
  rw [hopen, Option.map_some, Option.some.injEq] at hstep
  subst hstep
  -- The records that are kept lie in registered files already.
  have hsame : (s.kept L).restrict db.fileManager.metadata.files = s.kept L := by
    rw [hmetadata]
    funext f
    simp only [kept, Log.restrict]
    split_ifs <;> rfl
  refine ⟨s.kept L, ⟨hre.sound, ?_, trivial⟩, ?_, trivial, by rw [hmetadata]; exact h.name, ?_,
    fun f _ => ?_⟩
  · intro id e he
    simp only [kept, Log.restrict] at he
    split_ifs at he
    · exact h.inv.written id e he
    · cases he
  · intro key dir hdir loc e _ hloc hkey
    rw [hfind] at hdir
    obtain ⟨hmem, hloc⟩ := located_restrict_iff.mp hloc
    exact Or.inl (h.newest.idle hidle key dir hdir loc e hmem hloc hkey)
  · -- Every set record has its key in the index.
    intro loc e hloc htype
    dsimp only [kept] at hloc ⊢
    rw [hsame] at hloc
    rw [hfind]
    exact h.present loc e hloc htype
  · dsimp only [kept]
    rw [hsame, pendingBytes_idle, Nat.add_zero, hfree]

end Counted

variable {es : List Event}

/-- After any run of calls and restarts that deletes no present key, and removes no file
that is still needed, the count of every registered file is the size of its records that
no index entry points at, and the recovery computes the same count. -/
theorem free_eq_deadBytes (hname : name.length < 2 ^ 16)
    (hcounting : ∀ s₀, fresh opt name = some s₀ →
      Meets (eventStep opt name) (Counting opt) s₀ es)
    (hlives : Lives opt name es s) (hidle : s.Quiescent) :
    (∀ f ∈ s.db.fileManager.metadata.files, (s.db.fileStates f).free_bytes =
      DBImpl.deadBytes s.db.find (s.db.fileManager.log.records f)) ∧
    (Unfilled s.db.fileManager → ∀ buffer, ∃ db rest,
      DBImpl.openDb opt .sound name s.db.fileManager.disk buffer = some (.kOk, db, rest) ∧
        ∀ f ∈ s.db.fileManager.metadata.files,
          (db.fileStates f).free_bytes = (s.db.fileStates f).free_bytes) := by
  obtain ⟨s₀, hs₀, hrun⟩ := hlives
  -- The invariant, over all sessions.
  obtain ⟨L, h⟩ : ∃ L, Counted opt name s L := by
    refine hrun.invariant (P := fun s => ∃ L, Counted opt name s L) (hcounting s₀ hs₀)
      ⟨_, Counted.fresh hs₀⟩ ?_
    rintro t (a | _) u ⟨L, h⟩ hg hstep
    · exact h.step hg hstep
    · exact h.restart hname hg hstep
  have hfree : ∀ f, (s.db.fileStates f).free_bytes =
      DBImpl.deadBytes s.db.find ((s.kept L).records f) := by
    intro f
    have hf := h.free f (by rw [hidle.2]; exact not_false)
    rwa [hidle.2, pendingBytes_idle, Nat.add_zero] at hf
  refine ⟨fun f hf => ?_, fun hfilled buffer => ?_⟩
  · rw [hfree, kept, Log.records_restrict hf, h.inv.sound.holds.log_eq]
  · obtain ⟨db, rest, hopen, -, -, hfind, hfree'⟩ := h.reopened hidle hname hfilled buffer
    refine ⟨db, rest, hopen, fun f _ => ?_⟩
    rw [hfree', hfree, show db.find = s.db.find from funext hfind]

/-- An event of a run without compactions, with the conditions that can be evaluated. -/
def PlainCounting (opt : Options) (s : Session) : Event → Prop
  | .act a => Within opt s a ∧ a.IsAccess ∧ ¬ Deletes s a
  | .restart => Unfilled s.db.fileManager

instance (s : Session) (ev : Event) : Decidable (PlainCounting opt s ev) := by
  unfold PlainCounting
  cases ev <;> exact inferInstance

theorem PlainCounting.counting {ev : Event} (h : PlainCounting opt s ev) :
    Counting opt s ev := by
  cases ev with
  | act a => exact ⟨⟨h.1, h.2.1.removal⟩, h.2.2⟩
  | restart => exact h

end

open scoped Reference

/-- A key is put twice, the process restarts, and an absent key is deleted. -/
def putTwiceRestart : List Event :=
  [.act (.write (.put [107] [118])), .act (.write (.put [107] [119, 120])), .restart,
    .act (.write (.delete [108]))]

theorem free_eq_deadBytes_putTwiceRestart : ∃ s, Lives Reference.options [] putTwiceRestart s ∧
    ∀ f ∈ s.db.fileManager.metadata.files, (s.db.fileStates f).free_bytes =
      DBImpl.deadBytes s.db.find (s.db.fileManager.log.records f) := by
  obtain ⟨s₀, hs₀, -⟩ := exists_fresh Reference.options []
  have hrun : (((fresh Reference.options []).bind fun s =>
      putTwiceRestart.foldlM (eventStep Reference.options []) s).map fun s =>
        decide s.Quiescent) = some true := by decide +kernel
  rw [hs₀] at hrun
  obtain ⟨s, hs, hidle⟩ := Option.map_eq_some_iff.mp hrun
  have hcheck : ((fresh Reference.options []).map fun s =>
      check (eventStep Reference.options []) (PlainCounting Reference.options) s
        putTwiceRestart).getD true = true := by decide +kernel
  refine ⟨s, ⟨s₀, hs₀, hs⟩, (free_eq_deadBytes (by decide) (fun s₁ hs₁ => ?_) ⟨s₀, hs₀, hs⟩
    (of_decide_eq_true hidle)).1⟩
  rw [hs₁, Option.map_some, Option.getD_some] at hcheck
  exact (meets_of_check hcheck).mono fun _ _ hg => hg.counting

/-- A key is put and deleted. -/
def putDelete : List Event := [.act (.write (.put [107] [118])), .act (.write (.delete [107]))]

/-- The tombstone of a present key is not counted. -/
theorem free_ne_deadBytes : ∃ s, Lives Reference.options [] putDelete s ∧ s.Quiescent ∧
    1 ∈ s.db.fileManager.metadata.files ∧ (s.db.fileStates 1).free_bytes ≠
      DBImpl.deadBytes s.db.find (s.db.fileManager.log.records 1) := by
  obtain ⟨s₀, hs₀, -⟩ := exists_fresh Reference.options []
  have hrun : (((fresh Reference.options []).bind fun s =>
      putDelete.foldlM (eventStep Reference.options []) s).map fun s =>
        decide (s.Quiescent ∧ 1 ∈ s.db.fileManager.metadata.files ∧
          (s.db.fileStates 1).free_bytes ≠
            DBImpl.deadBytes s.db.find (s.db.fileManager.log.records 1))) = some true := by
    decide +kernel
  rw [hs₀] at hrun
  obtain ⟨s, hs, htrue⟩ := Option.map_eq_some_iff.mp hrun
  exact ⟨s, ⟨s₀, hs₀, hs⟩, of_decide_eq_true htrue⟩

end PedroDB.Session
