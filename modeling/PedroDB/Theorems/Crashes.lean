import PedroDB.OneMap
import PedroDB.Theorems.ReadYourWrites

/-!
# Answers after crashes

A process may die at any time, in front of any of its atomic blocks, and any number of
times. Every `Get` answers with the last write that was accepted, before each crash and
after it, exactly if no compaction removes a tombstone that an older record of its key
outlives.

## Main definitions

* `Session.Releases` — the condition on the removal of a file

## Main results

* `Session.Durable.tombstoned_step`, `Session.Durable.replyTo_step` — one step
* `Session.answer_of_crashes_iff` — all answers of a run, before and after a crash
-/

namespace PedroDB.Session

open Transition LastWriter

section

variable [Platform] {opt : Options} {name : Bytes} {fs : List Fate} {f : Fate} {s s' : Session}
  {a : Action} {L L' : Log}

/-- Behind each record of an absent key that is left when the file is removed, there is a
tombstone that is left. -/
def Releases (s : Session) : Fate → Prop
  | .act .block =>
    match s.compaction with
    | .finish id => ∀ loc e, s.db.fileManager.Readable loc e → loc.id ≠ id → e.type = .kSet →
        s.db.find e.key = none → ∃ loc' e', s.db.fileManager.Readable loc' e' ∧ loc'.id ≠ id ∧
          e'.key = e.key ∧ e'.type = .kDelete ∧ loc < loc'
    | _ => True
  | _ => True

/-- The next step removes no file. -/
def Keeping (s : Session) : Fate → Prop
  | .act .block =>
    match s.compaction with
    | .finish _ => False
    | _ => True
  | _ => True

instance (s : Session) : (f : Fate) → Decidable (Keeping s f)
  | .act .block =>
    match h : s.compaction with
    | .finish _ => .isFalse (by simp only [Keeping, h, not_false_eq_true])
    | .idle | .start _ | .mark _ | .scan _ _ | .check _ _ _ _ | .append _ _ _
    | .install _ _ _ _ => .isTrue (by simp only [Keeping, h])
  | .act (.write _) | .act (.get _ _) | .act .compact | .act (.task _) | .crash _ => .isTrue trivial

theorem Keeping.releases (h : Keeping s f) : Releases s f := by
  unfold Keeping at h
  unfold Releases
  split
  · split
    · next hc =>
      rw [hc] at h
      exact h.elim
    · trivial
  · trivial

theorem expected_accepted_concat (key : Key) : expected (accepted opt (fs ++ [f])) key =
    (KeyMap.after opt (written (accepted opt fs)) f).get key := by
  rw [← written_accepted_concat]
  rfl

theorem accepted_of_ne_write (hwrite : ∀ w, a ≠ .write w) : accepted opt [.act a] = [] := by
  cases a with
  | write w => exact absurd rfl (hwrite w)
  | _ => rfl

namespace Durable

theorem tombstoned_fresh (h : Session.fresh opt name = some s) : s.db.Tombstoned := by
  intro loc e hread
  have hmem := ((Durable.fresh h).readable_iff.mp hread).2.mem
  cases hmem

/-- Steps that remove no file do not take a tombstone away. -/
theorem tombstoned_of_subset (h : Durable opt name s L) (h' : Durable opt name s' L')
    (htomb : s.db.Tombstoned)
    (hold : ∀ loc e, loc.id ∈ s.db.fileManager.metadata.files → Located L loc e →
      loc.id ∈ s'.db.fileManager.metadata.files ∧ Located L' loc e)
    (hnew : ∀ loc e, loc.id ∈ s'.db.fileManager.metadata.files → Located L' loc e →
      e.type = .kSet → s'.db.find e.key = none →
        (loc.id ∈ s.db.fileManager.metadata.files ∧ Located L loc e ∧ s.db.find e.key = none) ∨
        ∃ loc' e', loc'.id ∈ s'.db.fileManager.metadata.files ∧ Located L' loc' e' ∧
          e'.key = e.key ∧ e'.type = .kDelete ∧ loc < loc') : s'.db.Tombstoned := by
  intro loc e hread htype hfind
  obtain ⟨hmem, hloc⟩ := h'.readable_iff.mp hread
  rcases hnew loc e hmem hloc htype hfind with ⟨hmem, hloc, hfind⟩ | ⟨loc', e', hm, hl, hrest⟩
  · obtain ⟨loc', e', hread', hrest⟩ := htomb loc e (h.readable_iff.mpr ⟨hmem, hloc⟩) htype hfind
    obtain ⟨hmem', hloc'⟩ := h.readable_iff.mp hread'
    exact ⟨loc', e', h'.readable_iff.mpr (hold loc' e' hmem' hloc'), hrest⟩
  · exact ⟨loc', e', h'.readable_iff.mpr ⟨hm, hl⟩, hrest⟩

/-- The tombstones that matter are kept exactly by the removals that release them. -/
theorem tombstoned_step (h : Durable opt name s L) (h' : Durable opt name s' L')
    (he : Effect opt s L a s' L') (htomb : s.db.Tombstoned) :
    s'.db.Tombstoned ↔ Releases s (.act a) := by
  have hsound := h.inv.sound
  -- Neither records nor index entries change.
  have hsame : s'.db.find = s.db.find → L' = L →
      s'.db.fileManager.metadata.files = s.db.fileManager.metadata.files → s'.db.Tombstoned := by
    rintro hfind rfl hfiles
    refine h.tombstoned_of_subset h' htomb (fun _ _ hmem hloc => ⟨hfiles ▸ hmem, hloc⟩) ?_
    intro loc e hmem hloc _ hnone
    exact Or.inl ⟨hfiles ▸ hmem, hloc, hfind ▸ hnone⟩
  cases he with
  | refused => exact iff_of_true htomb trivial
  | @write w hidle hs hwrap =>
    refine iff_of_true (h.tombstoned_of_subset h' htomb ?_ ?_) trivial
    · intro loc e hmem hloc
      rw [DBImpl.updateIndex_fileManager]
      exact ⟨FileManager.files_subset_appended hmem, hloc.add _ _⟩
    · intro loc e hmem hloc htype hfind
      rw [DBImpl.updateIndex_fileManager] at hmem ⊢
      rw [DBImpl.find_updateIndex] at hfind
      rcases located_appended hsound.holds hmem hloc with ⟨rfl, rfl⟩ | ⟨hmem, hloc⟩
      · -- A record that sets its key has it in the index.
        rw [if_pos (show (DBImpl.entryOf opt w).key = w.key from rfl),
          if_neg (DBImpl.entryOf_kSet.mp htype)] at hfind
        cases hfind
      · split_ifs at hfind with hkey hvalue
        · -- The key was deleted just now.
          refine Or.inr ⟨_, DBImpl.entryOf opt w, ?_, hsound.holds.located_nextLoc, hkey.symm, ?_,
            lt_nextLoc hsound hmem hloc⟩
          · exact (hsound.registered.appended hwrap).nextLoc_mem
          · rw [DBImpl.entryOf_type, if_pos hvalue]
        · exact Or.inl ⟨hmem, hloc, hfind⟩
  | get _ hdb => exact iff_of_true (hsame (by rw [hdb]; rfl) rfl (by rw [hdb])) trivial
  | compact => exact iff_of_true (hsame rfl rfl rfl) trivial
  | read hreading _ hdb =>
    refine iff_of_true (hsame (by rw [hdb]; rfl) rfl (by rw [hdb])) ?_
    simp only [Releases]
    split
    · next hc => rw [hc] at hreading; exact hreading.elim
    · trivial
  | @append id it next hc hwrap hs =>
    refine iff_of_true (h.tombstoned_of_subset h' htomb ?_ ?_) (by simp [Releases, hc])
    · intro loc e hmem hloc
      exact ⟨FileManager.files_subset_appended hmem, hloc.add _ _⟩
    · intro loc e hmem hloc htype hfind
      rcases located_appended hsound.holds hmem hloc with ⟨rfl, rfl⟩ | ⟨hmem, hloc⟩
      · -- The copied record is live.
        have hcopying := h.copying
        unfold Copying at hcopying
        rw [hc] at hcopying
        obtain ⟨dir, hdir, -⟩ := hcopying
        exact absurd (hdir.symm.trans hfind) (Option.some_ne_none dir)
      · exact Or.inl ⟨hmem, hloc, hfind⟩
  | @install id it next copy hc =>
    refine iff_of_true (h.tombstoned_of_subset h' htomb ?_ ?_) (by simp [Releases, hc])
    · intro loc e hmem hloc
      exact ⟨by rwa [DBImpl.compactInstall_fileManager], hloc⟩
    · intro loc e hmem hloc htype hfind
      rw [DBImpl.compactInstall_fileManager] at hmem
      rw [DBImpl.find_compactInstall] at hfind
      split_ifs at hfind
      exact Or.inl ⟨hmem, hloc, hfind⟩
  | @finish id hc =>
    -- What is left are the records of the other files.
    have hread : ∀ loc e, (s.db.compactFinish id).fileManager.Readable loc e ↔
        s.db.fileManager.Readable loc e ∧ loc.id ≠ id := by
      intro loc e
      have hfiles : (s.db.compactFinish id).fileManager.metadata.files =
          s.db.fileManager.metadata.files.erase id := FileManager.removeFile_files
      rw [h'.readable_iff, h.readable_iff, hfiles, Finset.mem_erase]
      tauto
    simp only [Releases, hc]
    constructor
    · intro htomb' loc e hr hne htype hfind
      obtain ⟨loc', e', hr', hrest⟩ := htomb' loc e ((hread loc e).mpr ⟨hr, hne⟩) htype hfind
      obtain ⟨hr', hne'⟩ := (hread loc' e').mp hr'
      exact ⟨loc', e', hr', hne', hrest⟩
    · intro hreleases loc e hr htype hfind
      obtain ⟨hr, hne⟩ := (hread loc e).mp hr
      obtain ⟨loc', e', hr', hne', hrest⟩ := hreleases loc e hr hne htype hfind
      exact ⟨loc', e', (hread loc' e').mpr ⟨hr', hne'⟩, hrest⟩
  | task hrun =>
    obtain ⟨_, _, rfl⟩ := FileManager.runTask_eq hrun
    exact iff_of_true (hsame rfl rfl rfl) trivial

/-- A state with the same index over the same records. -/
theorem recordOf_eq (h : Durable opt name s L) (h' : Durable opt name s' L)
    (hfind : s'.db.find = s.db.find) (key : Key) : s'.db.recordOf key = s.db.recordOf key :=
  h.inv.sound.recordOf_eq_of_find h'.inv.sound hfind (fun _ _ hx => hx) key

/-- Steps that write nothing change the record of no key. -/
theorem recordOf_step (h : Durable opt name s L) (h' : Durable opt name s' L')
    (he : Effect opt s L a s' L') (hwrite : ∀ w, a ≠ .write w) (key : Key) :
    s'.db.recordOf key = s.db.recordOf key := by
  have hsound := h.inv.sound
  have hsound' := h'.inv.sound
  cases he with
  | refused => exact absurd rfl (hwrite _)
  | write => exact absurd rfl (hwrite _)
  | get _ hdb => exact h.recordOf_eq h' (by rw [hdb]; rfl) key
  | compact => exact h.recordOf_eq h' rfl key
  | read _ _ hdb => exact h.recordOf_eq h' (by rw [hdb]; rfl) key
  | append => exact hsound.recordOf_eq_of_find hsound' rfl (fun _ _ hx => hx.add _ _) key
  | @install id it next copy hc =>
    refine hsound.recordOf_congr hsound' (fun hnone => ?_) fun dir e hfind hloc hkey => ?_
    · rw [DBImpl.find_compactInstall, if_neg]
      · exact hnone
      · rintro ⟨-, dir, hdir, -⟩
        rw [hnone] at hdir
        cases hdir
    · rw [DBImpl.find_compactInstall]
      split_ifs with hcond
      · -- The index moves to the copy.
        obtain ⟨hnext, dir', hdir', hlt⟩ := hcond
        obtain rfl := Option.some_inj.mp (hfind.symm.trans hdir')
        have hscans := h.inv.scans
        rw [hc] at hscans
        obtain ⟨-, -, -, -, -, hcopy, -, hmem⟩ := hscans
        exact ⟨_, rfl, h.eq_of_le hfind hloc hmem hcopy hnext.symm hlt.le ▸ hcopy⟩
      · exact ⟨dir, hfind, hloc⟩
  | finish => exact h.recordOf_eq h' rfl key
  | task hrun =>
    obtain ⟨_, _, rfl⟩ := FileManager.runTask_eq hrun
    exact h.recordOf_eq h' rfl key

/-- A step changes the record of a key only by a write to it. -/
theorem replyTo_step {m : KeyMap} (h : Durable opt name s L) (h' : Durable opt name s' L')
    (hwithin : Within opt s a) (he : Effect opt s L a s' L')
    (hreply : ∀ key, DBImpl.replyTo opt (s.db.recordOf key) = m.get key) (key : Key) :
    DBImpl.replyTo opt (s'.db.recordOf key) = (m.after opt (.act a)).get key := by
  have hsound := h.inv.sound
  have hsound' := h'.inv.sound
  by_cases hwrite : ∃ w, a = .write w
  · obtain ⟨w, rfl⟩ := hwrite
    cases he with
    | refused hidle hbig =>
      have hsizeOf : (DBImpl.entryOf opt w).sizeOf = (DBImpl.entryOf opt w).size :=
        u32_of_lt hwithin.1.size
      rw [KeyMap.after, hsizeOf, if_pos hbig, hreply]
    | write hidle hs hwrap =>
      rw [KeyMap.after, hs.sizeOf_eq, if_neg (Nat.not_lt.mpr hs.size)]
      have happended := hsound.appended hs hwrap
      refine happended.replyTo_updateIndex (fun key => ?_) hsound.holds.located_nextLoc
        happended.registered.nextLoc_mem key
      rw [← hreply key]
      exact congrArg _ (hsound.recordOf_eq_of_find happended rfl (fun _ _ hx => hx.add _ _) key)
  · have hwrite : ∀ w, a ≠ .write w := fun w ha => hwrite ⟨w, ha⟩
    have hsame : m.after opt (.act a) = m := by
      cases a with
      | write w => exact absurd rfl (hwrite w)
      | _ => rfl
    rw [hsame, h.recordOf_step h' he hwrite, hreply]

/-- After a crash, the records are those of the state that the process left on disk. -/
theorem crash_step {d : Death} (h : Durable opt name s L) (hname : name.length < 2 ^ 16)
    (hg : Roomy opt s (.crash d)) (hcrash : s.crash opt name d = some s') :
    ∃ L', Durable opt name s' L' ∧ s'.db.Tombstoned ∧
      s'.db.fileManager.CacheOk s'.db.readCache ∧
      ∀ m : KeyMap, s.db.Tombstoned →
        (∀ key, DBImpl.replyTo opt (s.db.recordOf key) = m.get key) →
          ∀ key, DBImpl.replyTo opt (s'.db.recordOf key) = (m.after opt (.crash d)).get key := by
  obtain ⟨fm, hfiles, hopened⟩ := Option.bind_eq_some_iff.mp hcrash
  obtain ⟨t, Lt, rfl, ht, hcases⟩ := h.exists_filesAt hg hfiles
  obtain ⟨db, rest, hopen, hre, hmetadata, hreflects⟩ := ht.exists_reopened hname
  rw [hopen, Option.map_some, Option.some.injEq] at hopened
  subst hopened
  obtain ⟨hdurable, htombstoned⟩ := ht.reopened rest hre hmetadata hreflects
  refine ⟨_, hdurable, htombstoned, ?_, fun m htomb hreply key => ?_⟩
  · -- The new process has cached nothing.
    rintro x ⟨i, hx⟩
    simp [hre.cache, ReadCache.create, LRUCache.create] at hx
  dsimp only
  rcases hcases with ⟨rfl, hfind, hd, hreadable⟩ | ⟨w, rfl, hsize, hstep, he⟩
  · -- Nothing was written that the process did not know of.
    have htomb' : t.db.Tombstoned := by
      simp only [DBImpl.Tombstoned, hreadable, hfind]
      exact htomb
    have hsame : m.after opt (.crash d) = m := by
      cases d with
      | appended w => exact absurd rfl (hd w)
      | _ => rfl
    rw [ht.recordOf_reopened hre hreflects htomb', h.recordOf_eq ht hfind, hreply, hsame]
  · have htomb' := (h.tombstoned_step ht he htomb).mpr trivial
    have hdone : m.after opt (.crash (.appended w)) = m.after opt (.act (.write w)) := by
      have hs := DBImpl.entryOf_storable hg.1.1.key hsize
      rw [KeyMap.after, KeyMap.after, hs.sizeOf_eq, if_neg (Nat.not_lt.mpr hs.size)]
    rw [ht.recordOf_reopened hre hreflects htomb', hdone]
    exact h.replyTo_step ht hg.1 he hreply key

end Durable

/-- The invariant at the end of a run with crashes. -/
theorem exists_durable (hname : name.length < 2 ^ 16)
    (hroomy : ∀ s₀, fresh opt name = some s₀ → Meets (fateStep opt name) (Roomy opt) s₀ fs)
    (hsurvives : Survives opt name fs s) : ∃ L, Durable opt name s L := by
  obtain ⟨s₀, hs₀, hrun⟩ := hsurvives
  refine hrun.invariant (P := fun s => ∃ L, Durable opt name s L) (hroomy s₀ hs₀)
    ⟨_, Durable.fresh hs₀⟩ ?_
  rintro t (a | d) u ⟨L, h⟩ hg hstep
  · obtain ⟨L', -, h'⟩ := h.step hg hstep
    exact ⟨L', h'⟩
  · obtain ⟨L', h', -⟩ := h.crash_step hname hg hstep
    exact ⟨L', h'⟩

/-- If every file that is removed releases its tombstones, the records are those of the last
accepted writes. -/
theorem exists_replying {s₀ : Session} (hname : name.length < 2 ^ 16)
    (hs₀ : fresh opt name = some s₀)
    (hroomy : Meets (fateStep opt name) (Roomy opt) s₀ fs)
    (hreleases : Meets (fateStep opt name) Releases s₀ fs)
    (hrun : Run (fateStep opt name) s₀ fs s) : ∃ L, Durable opt name s L ∧ s.db.Tombstoned ∧
      ∀ key, DBImpl.replyTo opt (s.db.recordOf key) = expected (accepted opt fs) key := by
  refine hrun.history (P := fun gs u => ∃ L, Durable opt name u L ∧ u.db.Tombstoned ∧
    ∀ key, DBImpl.replyTo opt (u.db.recordOf key) = expected (accepted opt gs) key)
    (g := fun s f => Roomy opt s f ∧ Releases s f) ?_ ?_ ?_
  · exact fun pre f rest t heq ht => ⟨hroomy pre f rest t heq ht, hreleases pre f rest t heq ht⟩
  · refine ⟨_, Durable.fresh hs₀, Durable.tombstoned_fresh hs₀, fun key => ?_⟩
    rw [DBImpl.recordOf_of_none]
    · rfl
    · rw [(fresh_db hs₀).1]
      rfl
  · rintro gs t (a | d) v ⟨L, h, htomb, hreply⟩ ⟨hg, hreleases⟩ hstep
    · obtain ⟨L', he, h'⟩ := h.step hg hstep
      refine ⟨L', h', (h.tombstoned_step h' he htomb).mpr hreleases, fun key => ?_⟩
      rw [expected_accepted_concat]
      exact h.replyTo_step h' hg.1 he hreply key
    · obtain ⟨L', h', htomb', -, hreply'⟩ := h.crash_step hname hg hstep
      refine ⟨L', h', htomb', fun key => ?_⟩
      rw [expected_accepted_concat]
      exact hreply' _ htomb hreply key

/-- Then so are the answers, in this process and in one that opens the database after it died. -/
theorem Durable.exists_answers {as : List Action} (h : Durable opt name s L)
    (hname : name.length < 2 ^ 16) (htomb : s.db.Tombstoned)
    (hreply : ∀ key, DBImpl.replyTo opt (s.db.recordOf key) = expected as key) :
    (∀ key, s.db.answer opt key = some (expected as key)) ∧
      ∃ db rest, DBImpl.openDb opt .sound name s.db.fileManager.disk ReadBuffer.empty =
          some (.kOk, db, rest) ∧ ∀ key, db.answer opt key = some (expected as key) := by
  obtain ⟨db, rest, hopen, hre, hmetadata, hreflects⟩ := h.exists_reopened hname
  obtain ⟨hdurable, -⟩ := h.reopened rest hre hmetadata hreflects
  refine ⟨fun key => ?_, db, rest, hopen, fun key => ?_⟩
  · rw [h.inv.sound.answer_eq opt h.room, hreply]
  · rw [hre.sound.answer_eq opt hdurable.room, h.recordOf_reopened hre hreflects htomb, hreply]

/-- After any number of crashes, in front of any atomic blocks, each `Get` answers with the
last accepted write of its key, in the process that runs and in one that opens the database
after a crash, exactly if every file that is removed releases its tombstones. -/
theorem answer_of_crashes_iff (hname : name.length < 2 ^ 16)
    (hroomy : ∀ s₀, fresh opt name = some s₀ → Meets (fateStep opt name) (Roomy opt) s₀ fs)
    (hsurvives : Survives opt name fs s) :
    (∀ gs u, gs <+: fs → Survives opt name gs u →
      (∀ key, u.db.answer opt key = some (expected (accepted opt gs) key)) ∧
        ∃ db rest, DBImpl.openDb opt .sound name u.db.fileManager.disk ReadBuffer.empty =
            some (.kOk, db, rest) ∧
          ∀ key, db.answer opt key = some (expected (accepted opt gs) key)) ↔
      ∀ s₀, fresh opt name = some s₀ → Meets (fateStep opt name) Releases s₀ fs := by
  obtain ⟨s₀, hs₀, hrun⟩ := hsurvives
  have hunique : ∀ {s₁}, fresh opt name = some s₁ → s₁ = s₀ := fun hs₁ =>
    Option.some_inj.mp (hs₁.symm.trans hs₀)
  -- What holds on a prefix of the run.
  have hprefix : ∀ {gs u}, gs <+: fs → Survives opt name gs u → ∃ L, Durable opt name u L := by
    rintro gs u ⟨post, rfl⟩ hu
    exact exists_durable hname (fun s₁ hs₁ => (hroomy s₁ hs₁).of_append) hu
  constructor
  · intro hall s₁ hs₁
    obtain rfl := hunique hs₁
    -- Answers that are kept show that the tombstones are.
    refine (hrun.forall_prefix_iff_meets (P := fun s => s.db.Tombstoned)
      (I := fun s => ∃ L, Durable opt name s L) (g := Releases) (hroomy s₁ hs₁)
      ⟨⟨_, Durable.fresh hs₁⟩, Durable.tombstoned_fresh hs₁⟩ ?_ ?_).mp ?_
    · rintro t (a | d) u ⟨L, h⟩ - - hg hstep
      · obtain ⟨L', -, h'⟩ := h.step hg hstep
        exact ⟨L', h'⟩
      · obtain ⟨L', h', -⟩ := h.crash_step hname hg hstep
        exact ⟨L', h'⟩
    · rintro t (a | d) u ⟨L, h⟩ htomb hg hstep
      · obtain ⟨L', he, h'⟩ := h.step hg hstep
        exact h.tombstoned_step h' he htomb
      · obtain ⟨L', -, htomb', -⟩ := h.crash_step hname hg hstep
        exact iff_of_true htomb' trivial
    · intro gs u hle hu
      have hu' : Survives opt name gs u := ⟨s₁, hs₁, hu⟩
      obtain ⟨L, h⟩ := hprefix hle hu'
      obtain ⟨hanswer, db, rest, hopen, hanswer'⟩ := hall gs u hle hu'
      obtain ⟨db', rest', hopen', hre, hmetadata, hreflects⟩ := h.exists_reopened hname
      rw [hopen', Option.some_inj, Prod.mk.injEq, Prod.mk.injEq] at hopen
      obtain ⟨-, rfl, rfl⟩ := hopen
      refine h.tombstoned_of_reopened hre hreflects fun key hnone => ?_
      obtain ⟨hdurable, -⟩ := h.reopened rest' hre hmetadata hreflects
      have heq := (hanswer' key).trans (hanswer key).symm
      rw [hre.sound.answer_eq opt hdurable.room, h.inv.sound.answer_eq opt h.room, hnone,
        Option.some_inj] at heq
      exact DBImpl.replyTo_eq_kNotFound (by rw [heq]; rfl)
  · rintro hreleases gs u ⟨post, rfl⟩ ⟨s₁, hs₁, hu⟩
    obtain rfl := hunique hs₁
    obtain ⟨L, h, htomb, hreply⟩ := exists_replying hname hs₁ (hroomy s₁ hs₁).of_append
      (hreleases s₁ hs₁).of_append hu
    exact h.exists_answers hname htomb hreply

end

open scoped Reference

/-- Two keys are put, one of them again, and the process dies when a compaction has copied a
record and not installed it. A key is deleted, and the process dies within a `Put`. -/
def twoCrashes : List Fate :=
  [.act (.write (.put [107] [118])), .act (.write (.put [108] [119])),
    .act (.write (.put [107] [120])), .act .compact] ++ List.replicate 8 (.act .block) ++
    [.crash .between, .act (.write (.delete [107])), .crash (.appended (.put [109] [121]))]

theorem answer_of_crashes_iff_twoCrashes :
    ∃ s, Survives Reference.options [] twoCrashes s ∧
      ((∀ gs u, gs <+: twoCrashes → Survives Reference.options [] gs u →
        (∀ key, u.db.answer Reference.options key =
          some (expected (accepted Reference.options gs) key)) ∧
          ∃ db rest, DBImpl.openDb Reference.options .sound [] u.db.fileManager.disk
              ReadBuffer.empty = some (.kOk, db, rest) ∧
            ∀ key, db.answer Reference.options key =
              some (expected (accepted Reference.options gs) key)) ↔
        ∀ s₀, fresh Reference.options [] = some s₀ →
          Meets (fateStep Reference.options []) Releases s₀ twoCrashes) := by
  obtain ⟨s₀, hs₀, -⟩ := exists_fresh Reference.options []
  have hsome : ((fresh Reference.options []).bind fun s =>
      twoCrashes.foldlM (fateStep Reference.options []) s).isSome := by decide +kernel
  rw [hs₀] at hsome
  obtain ⟨s, hs⟩ := Option.isSome_iff_exists.mp hsome
  have hcheck : ((fresh Reference.options []).map fun s =>
      check (fateStep Reference.options []) (Roomy Reference.options) s twoCrashes).getD true =
        true := by decide +kernel
  refine ⟨s, ⟨s₀, hs₀, hs⟩, answer_of_crashes_iff (by decide) (fun s₁ hs₁ => ?_) ⟨s₀, hs₀, hs⟩⟩
  rw [hs₁, Option.map_some, Option.getD_some] at hcheck
  exact meets_of_check hcheck

end PedroDB.Session
