import PedroDB.AnyState
import PedroDB.SyncWorker
import PedroDB.Theorems.Crashes

/-!
# The read-only database

The worker of a process counts the syncs that fail, and takes no failure back. So the
database is read-only from the run of the worker on that finds more failures than the limit,
until the process ends. What was written before stays readable, and the next process
accepts writes again.

## Main definitions

* `Supervised.Orderly` — the condition on the moves of a run

## Main results

* `Supervised.answer_of_ticks` — when writes are refused, and what every `Get` answers
* `Supervised.same_of_refuses` — what a read-only database never does
-/

namespace PedroDB.Supervised

open Transition LastWriter Session

section

variable [Platform] {opt : Options} {name : Bytes} {sync_max_io_error : ℤ} {ms : List Move}
  {m : Move} {s s' : Supervised} {L : Log}

/-- The steps of a database that is not read-only keep within the limits, leave room behind
each record, and release the tombstones of each file that is removed. -/
def Orderly (opt : Options) (s : Supervised) : Move → Prop
  | .fate (.act (.write w)) =>
    s.session.db.readonly = false → Roomy opt s.session (.act (.write w))
  | .fate f => Roomy opt s.session f ∧ Releases s.session f
  | .tick _ => True

/-- What holds all along a run of calls, crashes and runs of the worker. -/
structure Watched (opt : Options) (name : Bytes) (sync_max_io_error : ℤ) (ms : List Move)
    (s : Supervised) (L : Log) : Prop where
  durable : Durable opt name (s.session.withReadonly false) L
  tombstoned : (s.session.withReadonly false).db.Tombstoned
  replies : ∀ key, DBImpl.replyTo opt ((s.session.withReadonly false).db.recordOf key) =
    expected (accepted opt sync_max_io_error ms) key
  readonly : s.session.db.readonly = true ↔ Refuses sync_max_io_error ms
  failed : s.failedCount = failures (life ms)

theorem roomy_withReadonly {b : Bool} {s : Session} {f : Fate} :
    Roomy opt (s.withReadonly b) f ↔ Roomy opt s f := by
  rcases f with (w | _ | _ | _ | _) | (_ | _ | w)
  all_goals exact Iff.rfl

theorem releases_withReadonly {b : Bool} {s : Session} {f : Fate} :
    Releases (s.withReadonly b) f ↔ Releases s f := by
  rcases f with (w | _ | _ | _ | _) | d
  all_goals exact Iff.rfl

namespace Watched

/-- A step that a writable database could take as well, and that writes only to such a one. -/
theorem step {a : Action} {s' : Session} (h : Watched opt name sync_max_io_error ms s L)
    (hwrite : Refuses sync_max_io_error ms → ∀ w, a ≠ .write w)
    (hroomy : Roomy opt (s.session.withReadonly false) (.act a))
    (hreleases : Releases (s.session.withReadonly false) (.act a))
    (hstep : Session.step opt (s.session.withReadonly false) a = some (s'.withReadonly false))
    (hreadonly : s'.db.readonly = s.session.db.readonly) :
    ∃ L', Watched opt name sync_max_io_error (ms ++ [.fate (.act a)])
      { s with session := s' } L' := by
  obtain ⟨L', he, h'⟩ := h.durable.step hroomy hstep
  refine ⟨L', h', (h.durable.tombstoned_step h' he h.tombstoned).mpr hreleases, fun key => ?_, ?_, ?_⟩
  · have hreply := h.durable.replyTo_step h' hroomy.1 he h.replies key
    rw [accepted, ← expected_accepted_concat] at hreply
    rw [accepted, writableFrom_concat, List.nil_append]
    split_ifs with hrefuses
    · -- Nothing is written.
      have hnone : Session.accepted opt [.act a] = [] :=
        Session.accepted_of_ne_write (hwrite hrefuses)
      rw [Session.accepted_concat, hnone, List.append_nil] at hreply
      rwa [List.append_nil]
    · exact hreply
  · rw [refuses_act, ← h.readonly, hreadonly]
  · rw [life_act, failures_concat, h.failed]
    rfl

/-- A step that changes neither the database nor its files. -/
theorem refused {a : Action} {s' : Session} (h : Watched opt name sync_max_io_error ms s L)
    (hrefuses : Refuses sync_max_io_error ms) (hdb : s'.db = s.session.db)
    (hdurable : Durable opt name (s'.withReadonly false) L) :
    Watched opt name sync_max_io_error (ms ++ [.fate (.act a)]) { s with session := s' } L := by
  have hsame : (s'.withReadonly false).db = (s.session.withReadonly false).db := by
    simp only [withReadonly, hdb]
  refine ⟨hdurable, ?_, fun key => ?_, ?_, ?_⟩
  · rw [hsame]
    exact h.tombstoned
  · rw [hsame, h.replies, accepted, accepted, writableFrom_concat, List.nil_append, if_pos hrefuses,
      List.append_nil]
  · rw [refuses_act, ← h.readonly, hdb]
  · rw [life_act, failures_concat, h.failed]
    rfl

theorem act {a : Action} {s' : Session} (h : Watched opt name sync_max_io_error ms s L)
    (hg : Orderly opt s (.fate (.act a))) (hstep : Session.step opt s.session a = some s') :
    ∃ L', Watched opt name sync_max_io_error (ms ++ [.fate (.act a)])
      { s with session := s' } L' := by
  cases hro : s.session.db.readonly with
  | false =>
    -- The database is writable, and remains so.
    have hsame := withReadonly_eq hro
    have hrefuses : ¬ Refuses sync_max_io_error ms := by
      rw [← h.readonly, hro]
      exact Bool.false_ne_true
    have hboth : Roomy opt s.session (.act a) ∧ Releases s.session (.act a) := by
      cases a with
      | write w => exact ⟨hg hro, trivial⟩
      | _ => exact hg
    obtain ⟨L', -, h'⟩ := h.durable.step (hsame.symm ▸ hboth.1) (hsame.symm ▸ hstep)
    have hro' : s'.db.readonly = false := h'.inv.sound.writable
    refine h.step (fun hr => absurd hr hrefuses) ?_ ?_ ?_ (hro'.trans hro.symm)
    · rw [hsame]
      exact hboth.1
    · rw [hsame]
      exact hboth.2
    · rw [hsame, withReadonly_eq hro']
      exact hstep
  | true =>
    have hrefuses := h.readonly.mp hro
    rcases step_readonly hro hstep with ⟨w, rfl, rfl⟩ | ⟨id, rfl, hc, rfl⟩ | ⟨hwrite, hstep', hro'⟩
    · -- The write is refused.
      exact ⟨L, h.refused hrefuses rfl h.durable⟩
    · -- The compaction ends before it has begun.
      refine ⟨L, h.refused hrefuses rfl ⟨⟨h.durable.inv.sound, h.durable.inv.written, trivial⟩, ?_,
        trivial, h.durable.name, h.durable.room⟩⟩
      intro key dir hfind loc e hmem hloc hkey
      refine Or.inl ((h.durable.newest key dir hfind loc e hmem hloc hkey).resolve_right ?_)
      rintro ⟨_, _, _, hc'⟩
      cases hc.symm.trans hc'
    · have hboth : Roomy opt s.session (.act a) ∧ Releases s.session (.act a) := by
        cases a with
        | write w => exact absurd rfl (hwrite w)
        | _ => exact hg
      exact h.step (fun _ => hwrite) (roomy_withReadonly.mpr hboth.1)
        (releases_withReadonly.mpr hboth.2) hstep' (hro'.trans hro.symm)

/-- The next process starts writable, with the same records. -/
theorem crash {d : Death} {s' : Session} (h : Watched opt name sync_max_io_error ms s L)
    (hname : name.length < 2 ^ 16) (hg : Orderly opt s (.fate (.crash d)))
    (hcrash : s.session.crash opt name d = some s') :
    ∃ L', Watched opt name sync_max_io_error (ms ++ [.fate (.crash d)])
      { session := s', failedCount := 0 } L' := by
  -- What is left on disk does not depend on `readonly_`.
  obtain ⟨happended, hcrash'⟩ : (Refuses sync_max_io_error ms → ∀ w, d ≠ .appended w) ∧
      (s.session.withReadonly false).crash opt name d = some s' := by
    cases hro : s.session.db.readonly with
    | false =>
      refine ⟨fun hr => ?_, (withReadonly_eq hro).symm ▸ hcrash⟩
      rw [← h.readonly, hro] at hr
      cases hr
    | true =>
      obtain ⟨happended, hcrash'⟩ := crash_withReadonly hro hcrash
      exact ⟨fun _ => happended, hcrash'⟩
  obtain ⟨L', h', htomb, -, hreplies⟩ :=
    h.durable.crash_step hname (roomy_withReadonly.mpr hg.1) hcrash'
  have hro' : s'.db.readonly = false := h'.inv.sound.writable
  have hsame := withReadonly_eq hro'
  have hreplies := hreplies _ h.tombstoned h.replies
  refine ⟨L', hsame.symm ▸ h', hsame.symm ▸ htomb, fun key => ?_, ?_, ?_⟩
  · dsimp only
    rw [hsame, hreplies, accepted, ← expected_accepted_concat, accepted, writableFrom_concat,
      List.nil_append]
    split_ifs with hrefuses
    · -- The process did not die in a write.
      have hnone : Session.accepted opt [.crash d] = [] := by
        cases d with
        | appended w => exact absurd rfl (happended hrefuses w)
        | _ => rfl
      rw [Session.accepted_concat, hnone, List.append_nil, List.append_nil]
    · rfl
  · simp only [hro', Bool.false_eq_true, false_iff]
    exact not_refuses_crash
  · rw [life_crash]
    rfl

/-- The worker counts the syncs that fail. -/
theorem tick (h : Watched opt name sync_max_io_error ms s L) (io : SyncIo) :
    Watched opt name sync_max_io_error (ms ++ [.tick io]) (syncWorker sync_max_io_error io s) L := by
  rw [syncWorker_eq h.durable.inv.sound.holds.data h.failed]
  have hmono : failures (life ms) ≤ failures (life (ms ++ [.tick io])) := by
    rw [life_tick, failures_concat]
    exact Nat.le_add_right _ _
  -- Only `readonly_` can be different.
  have hsame : ∀ p : Prop, [Decidable p] →
      (if p then s.session.withReadonly true else s.session).withReadonly false =
        s.session.withReadonly false := by
    intro p _
    split_ifs <;> rfl
  refine ⟨?_, ?_, fun key => ?_, ?_, rfl⟩
  · dsimp only
    rw [hsame]
    exact h.durable
  · dsimp only
    rw [hsame]
    exact h.tombstoned
  · dsimp only
    rw [hsame, h.replies, accepted, accepted, writableFrom_concat]
    simp [Move.fates]
  · rw [refuses_tick]
    dsimp only
    split_ifs with hmax
    · exact iff_of_true rfl hmax
    · refine iff_of_false (fun hro => hmax ?_) hmax
      exact (h.readonly.mp hro).2.trans_le (Int.ofNat_le.mpr hmono)

theorem fresh {s₀ : Session} (h : Session.fresh opt name = some s₀) :
    Watched opt name sync_max_io_error [] { session := s₀, failedCount := 0 } fun _ => [] := by
  have hdurable := Durable.fresh h
  have hro : s₀.db.readonly = false := hdurable.inv.sound.writable
  have hsame := withReadonly_eq hro
  refine ⟨hsame.symm ▸ hdurable, ?_, fun key => ?_, by simp [hro, Refuses], rfl⟩
  · dsimp only
    rw [hsame]
    exact Durable.tombstoned_fresh h
  · dsimp only
    rw [hsame, DBImpl.recordOf_of_none]
    · rfl
    · rw [(fresh_db h).1]
      rfl

/-- One move. -/
theorem move (h : Watched opt name sync_max_io_error ms s L) (hname : name.length < 2 ^ 16)
    (hg : Orderly opt s m) (hstep : Supervised.step opt sync_max_io_error name s m = some s') :
    ∃ L', Watched opt name sync_max_io_error (ms ++ [m]) s' L' := by
  cases m with
  | fate f =>
    cases f with
    | act a =>
      obtain ⟨t, ht, rfl⟩ := Option.map_eq_some_iff.mp hstep
      exact h.act hg ht
    | crash d =>
      obtain ⟨t, ht, rfl⟩ := Option.map_eq_some_iff.mp hstep
      exact h.crash hname hg ht
  | tick io =>
    obtain rfl := Option.some_inj.mp hstep
    exact ⟨L, h.tick io⟩

end Watched

/-! ### What does not change any more -/

/-- No compaction is in the middle of a file. -/
def Resting (s : Session) : Prop := s.compaction = .idle ∨ ∃ id, s.compaction = .start id

/-- Data files, metadata and index are the same. -/
structure Same (s s' : Session) : Prop where
  metadata : s'.db.fileManager.metadata = s.db.fileManager.metadata
  activeFileId : s'.db.fileManager.activeFileId = s.db.fileManager.activeFileId
  dataFiles : s'.db.fileManager.dataFiles = s.db.fileManager.dataFiles
  indices : s'.db.indices = s.db.indices

omit [Platform] in
theorem Same.refl (s : Session) : Same s s := ⟨rfl, rfl, rfl, rfl⟩

omit [Platform] in
theorem Same.trans {s₁ s₂ s₃ : Session} (h : Same s₁ s₂) (h' : Same s₂ s₃) : Same s₁ s₃ :=
  ⟨h'.metadata.trans h.metadata, h'.activeFileId.trans h.activeFileId,
    h'.dataFiles.trans h.dataFiles, h'.indices.trans h.indices⟩

/-- A call of a client, or a block or a task, on a database that is read-only and at rest. -/
theorem resting_of_step {s s' : Session} {a : Action} (hro : s.db.readonly = true)
    (hrest : Resting s) (hstep : Session.step opt s a = some s') : Resting s' ∧ Same s s' := by
  rcases step_readonly hro hstep with ⟨w, rfl, rfl⟩ | ⟨id, rfl, hc, rfl⟩ | ⟨hwrite, -, -⟩
  · exact ⟨hrest, Same.refl _⟩
  · exact ⟨Or.inl rfl, rfl, rfl, rfl, rfl⟩
  · cases a with
    | write w => exact absurd rfl (hwrite w)
    | get use_read_cache key =>
      -- A read goes through the caches.
      simp only [Session.step] at hstep
      split_ifs at hstep
      obtain ⟨⟨reply, db, rest⟩, hget, rfl⟩ := Option.map_eq_some_iff.mp hstep
      obtain ⟨o, cache, rfl⟩ := DBImpl.handleGet_openFiles hget
      exact ⟨hrest, rfl, rfl, rfl, rfl⟩
    | compact =>
      simp only [Session.step] at hstep
      split_ifs at hstep
      obtain rfl := Option.some_inj.mp hstep
      exact ⟨hrest, rfl, rfl, rfl, rfl⟩
    | block =>
      simp only [Session.step, compactBlock] at hstep
      rcases hrest with hc | ⟨id, hc⟩
      · -- The next file is taken from the queue.
        cases hq : s.queue with
        | nil => simp [hc, hq] at hstep
        | cons id queue =>
          simp only [hc, hq, Option.some.injEq] at hstep
          subst hstep
          exact ⟨Or.inr ⟨id, rfl⟩, rfl, rfl, rfl, rfl⟩
      · simp only [hc, DBImpl.compactStep, DBImpl.compactStart, hro, if_true, Option.map_some,
          Option.some.injEq] at hstep
        subst hstep
        exact ⟨Or.inl rfl, rfl, rfl, rfl, rfl⟩
    | task i =>
      obtain ⟨fm, hrun, rfl⟩ := Option.map_eq_some_iff.mp hstep
      obtain ⟨tasks, indexFiles, rfl⟩ := FileManager.runTask_eq hrun
      exact ⟨hrest, rfl, rfl, rfl, rfl⟩

/-- The worker has counted the syncs that failed, and a database that refuses writes is
read-only. -/
structure Counted (sync_max_io_error : ℤ) (ms : List Move) (s : Supervised) : Prop where
  active : s.session.db.fileManager.activeDataFile.isSome
  failed : s.failedCount = failures (life ms)
  readonly : Refuses sync_max_io_error ms → s.session.db.readonly = true

theorem Counted.fresh {s₀ : Session} (h : Session.fresh opt name = some s₀) :
    Counted sync_max_io_error [] { session := s₀, failedCount := 0 } := by
  refine ⟨?_, rfl, by simp [Refuses]⟩
  rw [(fresh_db h).1]
  rfl

/-- One move, in any state. -/
theorem Counted.move (h : Counted sync_max_io_error ms s)
    (hstep : Supervised.step opt sync_max_io_error name s m = some s') :
    Counted sync_max_io_error (ms ++ [m]) s' := by
  cases m with
  | fate f =>
    cases f with
    | act a =>
      obtain ⟨t, ht, rfl⟩ := Option.map_eq_some_iff.mp hstep
      have hcarries := carries_of_step ht
      refine ⟨hcarries.active h.active, ?_, fun hrefuses => ?_⟩
      · rw [life_act, failures_concat, h.failed]
        rfl
      · exact hcarries.readonly.trans (h.readonly (refuses_act.mp hrefuses))
    | crash d =>
      obtain ⟨t, ht, rfl⟩ := Option.map_eq_some_iff.mp hstep
      exact ⟨active_of_crash ht, by rw [life_crash]; rfl,
        fun hrefuses => absurd hrefuses not_refuses_crash⟩
  | tick io =>
    obtain rfl := Option.some_inj.mp hstep
    obtain ⟨file, hfile⟩ := Option.isSome_iff_exists.mp h.active
    rw [syncWorker_eq hfile h.failed]
    refine ⟨?_, rfl, fun hrefuses => ?_⟩
    · dsimp only
      split_ifs
      · exact h.active
      · exact h.active
    · rw [refuses_tick] at hrefuses
      simp only [if_pos hrefuses]
      rfl

theorem counted_of_reaches (hreach : Reaches opt sync_max_io_error name ms s) :
    Counted sync_max_io_error ms s := by
  obtain ⟨s₀, hs₀, hrun⟩ := hreach
  refine hrun.history (g := fun _ _ => True) (P := fun ms s => Counted sync_max_io_error ms s)
    (fun _ _ _ _ _ _ => trivial) (Counted.fresh hs₀) ?_
  intro ms t m u h _ hstep
  exact h.move hstep

/-- The invariant at the end of a run. -/
theorem exists_watched (hname : name.length < 2 ^ 16)
    (horderly : ∀ s₀, fresh opt name = some s₀ → Meets (step opt sync_max_io_error name)
      (Orderly opt) { session := s₀, failedCount := 0 } ms)
    (hreach : Reaches opt sync_max_io_error name ms s) :
    ∃ L, Watched opt name sync_max_io_error ms s L := by
  obtain ⟨s₀, hs₀, hrun⟩ := hreach
  refine hrun.history (P := fun ms s => ∃ L, Watched opt name sync_max_io_error ms s L)
    (horderly s₀ hs₀) ⟨_, Watched.fresh hs₀⟩ ?_
  rintro ms t m u ⟨L, h⟩ hg hstep
  exact h.move hname hg hstep

/-- After any number of calls, crashes and runs of the worker, the database is read-only exactly
if more syncs than the limit have failed since its process began. Then it refuses every write.
Each `Get` answers with the last write that was accepted, whether or not. -/
theorem answer_of_ticks (hname : name.length < 2 ^ 16)
    (horderly : ∀ s₀, fresh opt name = some s₀ → Meets (step opt sync_max_io_error name)
      (Orderly opt) { session := s₀, failedCount := 0 } ms)
    (hreach : Reaches opt sync_max_io_error name ms s) :
    (s.session.db.readonly = true ↔ Refuses sync_max_io_error ms) ∧
      (Refuses sync_max_io_error ms → ∀ w,
        s.session.db.handlePut opt .sound w = some (.kNotSupported, s.session.db)) ∧
      ∀ key, s.session.db.answer opt key =
        some (expected (accepted opt sync_max_io_error ms) key) := by
  obtain ⟨L, h⟩ := exists_watched hname horderly hreach
  refine ⟨h.readonly, fun hrefuses w => ?_, fun key => ?_⟩
  · simp only [DBImpl.handlePut, DBImpl.prepare, h.readonly.mpr hrefuses, if_true]
  · rw [← h.replies key, ← h.durable.inv.sound.answer_eq opt h.durable.room]
    exact DBImpl.answer_withReadonly.symm

/-- Once the database refuses writes and no compaction is in the middle of a file, nothing that
the process does changes a data file, the metadata or the index any more. -/
theorem same_of_refuses {ms' : List Move} (hreach : Reaches opt sync_max_io_error name ms s)
    (hrefuses : Refuses sync_max_io_error ms) (hrest : Resting s.session)
    (hrun : Run (step opt sync_max_io_error name) s ms' s')
    (hcrash : ∀ d, Move.fate (.crash d) ∉ ms') :
    s'.session.db.readonly = true ∧ Same s.session s'.session := by
  have hro := (counted_of_reaches hreach).readonly hrefuses
  -- The process lives on, as long as no move is a crash.
  have hlive : Meets (step opt sync_max_io_error name) (fun _ m => ∀ d, m ≠ .fate (.crash d)) s
      ms' := by
    rintro pre m post t rfl -
    rintro d rfl
    exact hcrash d (by simp)
  have hend := hrun.invariant (P := fun t => t.session.db.readonly = true ∧ Resting t.session ∧
    Same s.session t.session) hlive ⟨hro, hrest, Same.refl _⟩ ?_
  · exact ⟨hend.1, hend.2.2⟩
  · rintro t m u ⟨hro, hrest, hsame⟩ hm hstep
    cases m with
    | fate f =>
      cases f with
      | act a =>
        obtain ⟨v, hv, rfl⟩ := Option.map_eq_some_iff.mp hstep
        obtain ⟨hrest', hsame'⟩ := resting_of_step hro hrest hv
        exact ⟨(carries_of_step hv).readonly.trans hro, hrest', hsame.trans hsame'⟩
      | crash d => exact absurd rfl (hm d)
    | tick io =>
      obtain rfl := Option.some_inj.mp hstep
      rw [syncWorker_session hro]
      exact ⟨hro, hrest, hsame⟩

/-- A move of a run that removes no file. -/
def PlainOrderly (opt : Options) (s : Supervised) : Move → Prop
  | .fate (.act .block) => False
  | .fate f => Roomy opt s.session f
  | .tick _ => True

instance (s : Supervised) : (m : Move) → Decidable (PlainOrderly opt s m)
  | .fate (.act (.write w)) => inferInstanceAs (Decidable (Roomy opt s.session (.act (.write w))))
  | .fate (.act (.get u key)) => inferInstanceAs (Decidable (Roomy opt s.session (.act (.get u key))))
  | .fate (.act .compact) => inferInstanceAs (Decidable (Roomy opt s.session (.act .compact)))
  | .fate (.act .block) => .isFalse not_false
  | .fate (.act (.task i)) => inferInstanceAs (Decidable (Roomy opt s.session (.act (.task i))))
  | .fate (.crash d) => inferInstanceAs (Decidable (Roomy opt s.session (.crash d)))
  | .tick _ => .isTrue trivial

theorem PlainOrderly.orderly (h : PlainOrderly opt s m) : Orderly opt s m := by
  rcases m with (a | d) | io
  · cases a with
    | write w => exact fun _ => h
    | block => exact h.elim
    | _ => exact ⟨h, trivial⟩
  · exact ⟨h, trivial⟩
  · trivial

/-- Runs without the removal of a file. -/
theorem orderly_of_check
    (hcheck : ((fresh opt name).map fun s => check (step opt sync_max_io_error name)
      (PlainOrderly opt) { session := s, failedCount := 0 } ms).getD true = true) :
    ∀ s₀, fresh opt name = some s₀ → Meets (step opt sync_max_io_error name) (Orderly opt)
      { session := s₀, failedCount := 0 } ms := by
  intro s₀ hs₀
  rw [hs₀, Option.map_some, Option.getD_some] at hcheck
  exact (meets_of_check hcheck).mono fun _ _ hg => hg.orderly

end

open scoped Reference

/-- A key is put, and two syncs fail, one more than the limit, with one in between that does
not. -/
def putFail : List Move :=
  [.fate (.act (.write (.put [107] [118]))), .tick ⟨true, false⟩, .tick ⟨true, true⟩,
    .tick ⟨false, true⟩]

/-- Another `Put` is refused. Then the process dies, and the next one accepts it. -/
def putFailCrash : List Move :=
  putFail ++ [.fate (.act (.write (.put [107] [119]))), .fate (.crash .between),
    .fate (.act (.write (.put [108] [120])))]

theorem answer_of_ticks_putFailCrash : ∃ s, Reaches Reference.options 1 [] putFailCrash s ∧
    (s.session.db.readonly = true ↔ Refuses 1 putFailCrash) ∧
      (Refuses 1 putFailCrash → ∀ w, s.session.db.handlePut Reference.options .sound w =
        some (.kNotSupported, s.session.db)) ∧
      ∀ key, s.session.db.answer Reference.options key =
        some (expected (accepted Reference.options 1 putFailCrash) key) := by
  obtain ⟨s₀, hs₀, -⟩ := exists_fresh Reference.options []
  have hsome : ((fresh Reference.options []).bind fun s =>
      putFailCrash.foldlM (step Reference.options 1 []) { session := s, failedCount := 0 }).isSome := by
    decide +kernel
  rw [hs₀] at hsome
  obtain ⟨s, hs⟩ := Option.isSome_iff_exists.mp hsome
  exact ⟨s, ⟨s₀, hs₀, hs⟩, answer_of_ticks (by decide) (orderly_of_check (by decide +kernel))
    ⟨s₀, hs₀, hs⟩⟩

/-- A `Put` is refused, files are polled for a compaction, and a sync succeeds. -/
def refusedCalls : List Move :=
  [.fate (.act (.write (.put [107] [119]))), .fate (.act .compact), .tick ⟨true, true⟩]

theorem same_of_refuses_refusedCalls : ∃ s s', Reaches Reference.options 1 [] putFail s ∧
    Run (step Reference.options 1 []) s refusedCalls s' ∧
      s'.session.db.readonly = true ∧ Same s.session s'.session := by
  obtain ⟨s₀, hs₀, -⟩ := exists_fresh Reference.options []
  have hrun : (((fresh Reference.options []).bind fun s =>
      putFail.foldlM (step Reference.options 1 []) { session := s, failedCount := 0 }).map fun s =>
        decide s.session.Quiescent && (refusedCalls.foldlM (step Reference.options 1 []) s).isSome) =
          some true := by decide +kernel
  rw [hs₀] at hrun
  obtain ⟨s, hs, htrue⟩ := Option.map_eq_some_iff.mp hrun
  obtain ⟨hidle, hsome⟩ := Bool.and_eq_true_iff.mp htrue
  obtain ⟨s', hs'⟩ := Option.isSome_iff_exists.mp hsome
  exact ⟨s, s', ⟨s₀, hs₀, hs⟩, hs', same_of_refuses ⟨s₀, hs₀, hs⟩ (by decide)
    (Or.inl (of_decide_eq_true hidle).2) hs' (by simp [refusedCalls])⟩

end PedroDB.Supervised
