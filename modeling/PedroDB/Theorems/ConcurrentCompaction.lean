import PedroDB.InFlight
import PedroDB.Reference

/-!
# Updates during a compaction

`Compact(id)` checks that a record is live, appends a copy of it, and compares the location
of the copy with the one that the index has by then. A `Put` that appends its record after
the check and in front of the copy loses that comparison, and the old value comes back.

## Main definitions

* `Thread.Unraced` — no copy of the key is in front of being installed over a record
* `Concurrent.Undisturbed` — what must not happen to the key afterwards

## Main results

* `Concurrent.find_put_of_run` — then the index leads to the value of the `Put`
* `Concurrent.exists_put_undone` — a copy of the old record is installed over a `Put`
-/

namespace PedroDB

open Transition

section

variable [Platform] {opt : Options} {s s' : Concurrent} {a : Concurrent.Action} {L L' : Log}

/-- The thread has not checked a record of the key, unless its copy is in front of `loc`. -/
def Thread.Unraced (key : Key) (loc : Location) : Thread → Prop
  | .compact _ (.append _ _ next) => next.key ≠ key
  | .compact _ (.install _ _ next copy) => next.key = key → copy < loc
  | _ => True

namespace Concurrent

/-- No write of the key updates the index, no copy of it is installed from a file that was
removed, and the file that its index entry leads to is not removed. -/
def Undisturbed (key : Key) (s : Concurrent) : Action → Prop
  | .index t =>
    match s.threads t with
    | .index w _ => w.key ≠ key
    | _ => True
  | .block t _ =>
    match s.threads t with
    | .compact _ (.install _ _ next copy) =>
      next.key = key → copy.id ∈ s.db.fileManager.metadata.files
    | .compact _ (.finish id) => ∀ dir ∈ s.db.find key, dir.loc.id ≠ id
    | _ => True
  | _ => True

instance (key : Key) (s : Concurrent) : (a : Action) → Decidable (s.Undisturbed key a)
  | .index t =>
    match h : s.threads t with
    | .index w _ => decidable_of_iff (w.key ≠ key) (by simp only [Undisturbed, h])
    | .idle | .append _ | .compact _ _ => .isTrue (by simp only [Undisturbed, h])
  | .block t _ =>
    match h : s.threads t with
    | .compact _ (.install _ _ next copy) =>
      decidable_of_iff (next.key = key → copy.id ∈ s.db.fileManager.metadata.files)
        (by simp only [Undisturbed, h])
    | .compact _ (.finish id) =>
      decidable_of_iff (∀ dir ∈ s.db.find key, dir.loc.id ≠ id) (by simp only [Undisturbed, h])
    | .compact _ .idle | .compact _ (.start _) | .compact _ (.mark _) | .compact _ (.scan _ _)
    | .compact _ (.check _ _ _ _) | .compact _ (.append _ _ _)
    | .idle | .append _ | .index _ _ => .isTrue (by simp only [Undisturbed, h])
  | .write _ _ | .append _ _ | .poll | .start _ _ | .compact _ | .fail _ | .readonly | .task _ =>
    .isTrue trivial

end Concurrent

/-- What the thread copies of the key of `e` is `e`, or the copy is in front of `loc`. -/
def Thread.Follows (e : Entry) (loc : Location) : Thread → Prop
  | .compact _ (.append _ _ next) => next.key = e.key → next = e
  | .compact _ (.install _ _ next copy) => next.key = e.key → next = e ∨ copy < loc
  | _ => True

namespace Concurrent

/-- The index leads to a registered record `e`, which is not in front of `loc`, and so it
will. -/
structure Led (s : Concurrent) (L : Log) (e : Entry) (loc : Location) (dir : Dir) : Prop where
  find : s.db.find e.key = some dir
  le : loc ≤ dir.loc
  file : dir.loc.id ∈ s.db.fileManager.metadata.files
  located : Located L dir.loc e
  follows : ∀ t, (s.threads t).Follows e loc

omit [Platform] in
theorem follows_setThread {e : Entry} {loc : Location} {t : ℕ} {th : Thread} {db : DBImpl}
    (h : ∀ u, (s.threads u).Follows e loc) (hth : th.Follows e loc) (u : ℕ) :
    (({ s with db } : Concurrent).setThread t th |>.threads u).Follows e loc := by
  by_cases hu : u = t
  · subst hu
    rw [setThread_self]
    exact hth
  · rw [setThread_of_ne th hu]
    exact h u

/-- One step that does not disturb the key. -/
theorem Led.step {e : Entry} {loc : Location} {dir : Dir} (h : s.Led L e loc dir)
    (hinv : Inv opt s L) (hquiet : s.Undisturbed e.key a) (hchange : Change opt s L a s' L') :
    ∃ dir', s'.Led L' e loc dir' := by
  cases hchange with
  | @appended t opens w l fm ht hextends =>
    exact ⟨dir, h.find, h.le, hextends.files h.file, h.located.add _ _,
      follows_setThread h.follows trivial⟩
  | @indexed t w l ht =>
    simp only [Undisturbed, ht] at hquiet
    refine ⟨dir, ?_, h.le, ?_, h.located, follows_setThread h.follows trivial⟩
    · rw [setThread_db, DBImpl.find_updateIndex, if_neg (Ne.symm hquiet)]
      exact h.find
    · rw [setThread_db, DBImpl.updateIndex_fileManager]
      exact h.file
  | @copied t id opens queue it next copy fm ht hextends =>
    have hfollows := h.follows t
    rw [ht] at hfollows
    exact ⟨dir, h.find, h.le, hextends.files h.file, h.located.add _ _,
      follows_setThread h.follows fun hkey => Or.inl (hfollows hkey)⟩
  | @installed t id opens queue it next copy ht =>
    have hfollows := h.follows t
    rw [ht] at hfollows
    have hcopy : Located L copy next := (hinv.carries ht).2
    simp only [Undisturbed, ht] at hquiet
    have hfm := DBImpl.compactInstall_fileManager next copy s.db
    by_cases hcond : e.key = next.key ∧ ∃ d ∈ s.db.find e.key, d.loc < copy
    · obtain ⟨hkey, d, hd, hlt⟩ := hcond
      obtain rfl := Option.some_inj.mp (h.find.symm.trans hd)
      -- The copy is behind the record that the index leads to, so it is one of that record.
      obtain rfl : next = e := (hfollows hkey.symm).resolve_right fun hcopy =>
        Location.lt_asymm (h.le.trans_lt hlt) hcopy
      refine ⟨{ entry_size := next.sizeOf, loc := copy }, ?_, h.le.trans hlt.le, ?_, hcopy,
        follows_setThread h.follows trivial⟩
      · rw [setThread_db, DBImpl.find_compactInstall, if_pos ⟨rfl, dir, hd, hlt⟩]
      · rw [setThread_db, hfm]
        exact hquiet rfl
    · refine ⟨dir, ?_, h.le, ?_, h.located, follows_setThread h.follows trivial⟩
      · rw [setThread_db, DBImpl.find_compactInstall, if_neg hcond]
        exact h.find
      · rw [setThread_db, hfm]
        exact h.file
  | @removed t id opens queue ht =>
    simp only [Undisturbed, ht] at hquiet
    refine ⟨dir, h.find, h.le, ?_, h.located, follows_setThread h.follows trivial⟩
    rw [setThread_db, DBImpl.compactFinish, FileManager.removeFile_files, Finset.mem_erase]
    exact ⟨hquiet dir h.find, h.file⟩
  | quiet hfind hstores hfiles hactive hlinked hthreads =>
    refine ⟨dir, hfind ▸ h.find, h.le, hfiles ▸ h.file, h.located, fun u => ?_⟩
    rcases hthreads u with ⟨hsame, -⟩ | ⟨hnew, -⟩
    · exact hsame ▸ h.follows u
    · generalize s'.threads u = th at hnew
      unfold Thread.Follows
      split
      · -- The liveness check has compared the record with the one that the index leads to.
        intro hkey
        obtain ⟨d, hd, hloc⟩ := hnew
        rw [hkey] at hd
        obtain rfl := Option.some_inj.mp (h.find.symm.trans hd)
        exact hloc.unique h.located
      · exact hnew.elim
      · trivial

variable (opt) in
/-- The index leads to a record that the write has appended, or to a copy of one, in a file
that is registered. -/
def LeadsTo (s : Concurrent) (w : Write) : Prop :=
  ∃ dir, s.db.find w.key = some dir ∧ dir.loc.id ∈ s.db.fileManager.metadata.files ∧
    Located s.db.fileManager.log dir.loc (DBImpl.entryOf opt w)

/-- The index update of a `Put`. -/
theorem Inv.led {t : ℕ} {w : Write} {loc : Location} (h : Inv opt s L)
    (ht : s.threads t = .index w loc) (hput : w.value ≠ [])
    (hfile : loc.id ∈ s.db.fileManager.metadata.files)
    (hunraced : ∀ u, (s.threads u).Unraced w.key loc)
    (hindex : Concurrent.step opt s (.index t) = some s') :
    Inv opt s' L ∧ ∃ dir, s'.Led L (DBImpl.entryOf opt w) loc dir := by
  have hloc : Located L loc (DBImpl.entryOf opt w) := h.carries ht
  have hfollows : ∀ u, (s.threads u).Follows (DBImpl.entryOf opt w) loc := by
    intro u
    have hu := hunraced u
    generalize s.threads u = th at hu
    unfold Thread.Follows
    split
    · exact fun hkey => absurd hkey hu
    · exact fun hkey => Or.inr (hu hkey)
    · trivial
  simp only [Concurrent.step, ht, Option.some.injEq] at hindex
  subst hindex
  refine ⟨h.step (.indexed ht), ?_⟩
  refine ⟨{ entry_size := (DBImpl.entryOf opt w).sizeOf, loc }, ?_, le_rfl, ?_, hloc,
    follows_setThread hfollows trivial⟩
  · rw [setThread_db, DBImpl.find_updateIndex, if_pos DBImpl.entryOf_key, if_neg hput]
  · rw [setThread_db, DBImpl.updateIndex_fileManager]
    exact hfile

/-- Any number of threads write and compact. If no copy of the key is in front of being
installed when a `Put` updates the index, and the key is not disturbed afterwards, then the
index leads to the value of the `Put` from then on. -/
theorem find_put_of_run {db : DBImpl} {before after : List Action} {s₁ s₂ s₃ : Concurrent}
    {t : ℕ} {w : Write} {loc : Location} (hsound : db.Sound L) (hwritten : L.Written opt)
    (hbefore : Run (step opt) (start db) before s₁)
    (hwithin : Meets (step opt) (Within opt) (start db) before)
    (ht : s₁.threads t = .index w loc) (hput : w.value ≠ [])
    (hfile : loc.id ∈ s₁.db.fileManager.metadata.files)
    (hunraced : ∀ u, (s₁.threads u).Unraced w.key loc)
    (hindex : step opt s₁ (.index t) = some s₂) (hafter : Run (step opt) s₂ after s₃)
    (hmeets : Meets (step opt) (fun s a => s.Within opt a ∧ s.Undisturbed w.key a) s₂ after) :
    s₃.LeadsTo opt w := by
  obtain ⟨L₁, hinv₁⟩ := (Inv.start hsound hwritten).run hbefore hwithin
  have hled := hinv₁.led ht hput hfile hunraced hindex
  obtain ⟨L₃, hinv, dir, h⟩ := hafter.invariant
    (P := fun s => ∃ L, Inv opt s L ∧ ∃ dir, s.Led L (DBImpl.entryOf opt w) loc dir) hmeets
    ⟨L₁, hled⟩ fun s a s' ⟨L, hinv, dir, h⟩ ⟨hw, hquiet⟩ hstep => by
      obtain ⟨L', hchange⟩ := hinv.change hw hstep
      exact ⟨L', hinv.step hchange, h.step hinv hquiet hchange⟩
  refine ⟨dir, h.find, h.file, ?_⟩
  rw [hinv.stores.log_eq]
  exact h.located

/-- So its value is that of the write. -/
theorem LeadsTo.valueOf {w : Write} (h : s.LeadsTo opt w) (hinv : Inv opt s L) :
    s.db.valueOf w.key = some (DBImpl.stored opt w.value) := by
  obtain ⟨dir, hfind, -, hloc⟩ := h
  rw [hinv.stores.log_eq] at hloc
  rw [DBImpl.valueOf, hfind, Option.bind_some, (hinv.stores.files dir.loc.id).unPack_eq hloc]
  rfl

end Concurrent

end

namespace Concurrent

open scoped Reference

/-- A thread writes. -/
def write (t : ℕ) (w : Write) : List Action := [.write t w, .append t .sound, .index t]

/-- `Compact()` is called, and stands in front of the `Append` of the second record. -/
def copying : List Action := .compact 1 :: List.replicate 7 (.block 1 .sound)

/-- The key of the copy that the thread has appended, and where it is. -/
def copyOf : Thread → Option (Key × Location)
  | .compact _ (.install _ _ next copy) => some (next.key, copy)
  | _ => none

theorem unraced_of_copyOf {th : Thread} {key : Key} {copy loc : Location}
    (h : copyOf th = some (key, copy)) (hlt : copy < loc) : th.Unraced key loc := by
  unfold copyOf at h
  split at h
  · obtain ⟨-, rfl⟩ := Prod.mk.inj (Option.some_inj.mp h)
    exact fun _ => hlt
  · cases h

/-- A key is put twice by a single client, and the file manager rolls over. -/
def rolledFile : Option DBImpl :=
  ((Session.fresh Reference.options []).bind fun s =>
    [.write (.put [107] [1]), .write (.put [107] [2])].foldlM
      (Session.step Reference.options) s).map fun s =>
        { s.db with fileManager := s.db.fileManager.rolled }

theorem exists_rolledFile_sound : ∃ db L, rolledFile = some db ∧ db.Sound L ∧
    L.Written Reference.options := by
  obtain ⟨s₀, hs₀, -⟩ := Session.exists_fresh Reference.options []
  have hrun : ((Session.fresh Reference.options []).bind fun s =>
      [.write (.put [107] [1]), .write (.put [107] [2])].foldlM
        (Session.step Reference.options) s).map (fun s =>
          decide (s.db.fileManager.activeFileId + 1 < 2 ^ 32)) = some true := by
    decide +kernel
  obtain ⟨s, hs, hwrap⟩ := Option.map_eq_some_iff.mp hrun
  have hcareful : Session.Guarded Reference.options (Session.Careful Reference.options) []
      [.write (.put [107] [1]), .write (.put [107] [2])] :=
    Session.careful_of_check (by decide) (by decide +kernel)
  rw [hs₀, Option.bind_some] at hs
  obtain ⟨L, h, -⟩ := Session.exists_inv_cacheOk hcareful ⟨s₀, hs₀, hs⟩
  refine ⟨_, L, ?_, h.sound.rolled (of_decide_eq_true hwrap), h.written⟩
  rw [rolledFile, hs₀, Option.bind_some, hs, Option.map_some]

/-- `Compact()` has checked the record of the key that is live. The key is put again, and the copy
is appended in front of the record of that `Put`. -/
def putBehind : List Action :=
  copying ++ [.write 0 (.put [107] [3]), .block 1 .sound, .append 0 .sound]

/-- The copy loses against the `Put`, and file 1 is removed. -/
def compactRest : List Action := List.replicate 4 (.block 1 .sound)

theorem find_put_of_run_putBehind : ∃ db s, rolledFile = some db ∧
    Run (step Reference.options) (start db) (putBehind ++ .index 0 :: compactRest) s ∧
    s.threads 1 = .idle ∧ 1 ∉ s.db.fileManager.metadata.files ∧
    s.LeadsTo Reference.options (.put [107] [3]) := by
  obtain ⟨db, L, hdb, hsound, hwritten⟩ := exists_rolledFile_sound
  have hrun : (rolledFile.bind fun db =>
      (putBehind.foldlM (step Reference.options) (start db)).bind fun s₁ =>
        (step Reference.options s₁ (.index 0)).bind fun s₂ =>
          (compactRest.foldlM (step Reference.options) s₂).map fun s₃ =>
            decide (check (step Reference.options) (Within Reference.options) (start db)
                putBehind = true ∧
              s₁.threads 0 = .index (.put [107] [3]) ⟨2, 16⟩ ∧
              copyOf (s₁.threads 1) = some ([107], ⟨2, 0⟩) ∧
              2 ∈ s₁.db.fileManager.metadata.files ∧ s₃.threads 1 = .idle ∧
              1 ∉ s₃.db.fileManager.metadata.files ∧
              check (step Reference.options)
                (fun s a => s.Within Reference.options a ∧ s.Undisturbed [107] a) s₂
                compactRest = true)) = some true := by
    decide +kernel
  rw [hdb, Option.bind_some] at hrun
  obtain ⟨s₁, hbefore, hrun⟩ := Option.bind_eq_some_iff.mp hrun
  obtain ⟨s₂, hindex, hrun⟩ := Option.bind_eq_some_iff.mp hrun
  obtain ⟨s₃, hafter, htrue⟩ := Option.map_eq_some_iff.mp hrun
  obtain ⟨hwithin, ht, hcopy, hfile, hidle, hremoved, hcheck⟩ := of_decide_eq_true htrue
  have hunraced : ∀ u, (s₁.threads u).Unraced [107] ⟨2, 16⟩ := by
    intro u
    by_cases hu : u = 0
    · rw [hu, ht]
      trivial
    by_cases hu₁ : u = 1
    · rw [hu₁]
      exact unraced_of_copyOf hcopy (by decide)
    rw [threads_of_run hbefore (by
      simp [putBehind, copying, Action.thread, Ne.symm hu, Ne.symm hu₁])]
    trivial
  refine ⟨db, s₃, hdb, run_append.mpr ⟨s₁, hbefore, run_cons.mpr ⟨s₂, hindex, hafter⟩⟩, hidle,
    hremoved, ?_⟩
  exact find_put_of_run hsound hwritten hbefore (meets_of_check hwithin) ht (by decide) hfile
    hunraced hindex hafter (meets_of_check hcheck)

/-- A key is put twice. -/
def putTwice : List Action := write 0 (.put [107] [1]) ++ write 0 (.put [107] [2])

/-- A key was put twice, and then an `Append` has rolled over: file 1 is sealed and queued for
compaction, file 2 is empty. -/
def sealedFile : Option DBImpl :=
  (putTwice.foldlM (step Reference.options) (start (Session.newDb Reference.options []))).map
    fun s => { s.db with
      fileManager := (s.db.fileManager.rollOver .sound s.db.fileManager.capture).2 }

/-- The key is put again: `Append`, the copy of the old record, the index update of the `Put`,
that of the copy, and the rest of the compaction. -/
def putUndone : List Action :=
  [.write 0 (.put [107] [3]), .append 0 .sound, .block 1 .sound, .index 0, .block 1 .sound] ++
    List.replicate 3 (.block 1 .sound)

/-- All calls have returned, and the key has its old value. -/
theorem exists_put_undone : ∃ db s, sealedFile = some db ∧
    Run (step Reference.options) (start db) (copying ++ putUndone) s ∧
    s.threads 0 = .idle ∧ s.threads 1 = .idle ∧ s.db.valueOf [107] = some [2] := by
  have hrun : (sealedFile.bind fun db =>
      ((copying ++ putUndone).foldlM (step Reference.options) (start db)).map fun s =>
        decide (s.threads 0 = .idle ∧ s.threads 1 = .idle ∧ s.db.valueOf [107] = some [2])) =
      some true := by
    decide +kernel
  obtain ⟨db, hdb, hrun⟩ := Option.bind_eq_some_iff.mp hrun
  obtain ⟨s, hs, htrue⟩ := Option.map_eq_some_iff.mp hrun
  exact ⟨db, s, hdb, hs, of_decide_eq_true htrue⟩

end Concurrent

end PedroDB
