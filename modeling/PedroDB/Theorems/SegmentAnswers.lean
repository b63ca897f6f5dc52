import PedroDB.SegmentFates
import PedroDB.Theorems.Crashes
import PedroDB.Theorems.FilePaths

/-!
# A segmented database keeps what it is given

Whatever the segments do in between, and whenever their process dies, a `Get` on a `SegmentDB`
answers with the last accepted write of its key, as one database would.

## Main results

* `SegmentDB.answer_of_crashes` — all answers, before and after the process dies
* `SegmentDB.apart_segments` — two segments, of one database or of two, share no file
-/

namespace PedroDB.SegmentDB

open Transition Session

section

variable [Platform] {n : ℕ} {hn : 0 < n} {hash : Key → ℕ} {opt : Options} {path : Bytes}
  {xs : List (Happening n)} {segments segments' : Fin n → Session}

/-- After any happenings, crashes of the process among them, each `Get` on a segmented database
answers with the last accepted write of its key, and so it does in another process that opens
the segments again, if every file that a segment removes releases its tombstones. -/
theorem answer_of_crashes (hname : ∀ i : Fin n, (segmentName path i).length < 2 ^ 16)
    (hopened : openNew opt n path = some segments)
    (hroomy : Meets (step hn hash opt path) (Guard hn hash (Roomy opt)) segments xs)
    (hreleases : Meets (step hn hash opt path) (Guard hn hash Releases) segments xs)
    (hrun : Run (step hn hash opt path) segments xs segments') :
    (∀ key, answer hn hash opt (fun i => (segments' i).db) key =
      some (expected (accepted opt xs) key)) ∧
    ∃ dbs : Fin n → DBImpl, (∀ i : Fin n, ∃ rest, DBImpl.openDb opt .sound (segmentName path i)
        (segments' i).db.fileManager.disk ReadBuffer.empty = some (.kOk, dbs i, rest)) ∧
      ∀ key, answer hn hash opt dbs key = some (expected (accepted opt xs) key) := by
  have hmoves := run_iff.mp hrun
  -- Each segment is a database with a run of its own.
  have hsegment : ∀ i : Fin n,
      (∀ key, (segments' i).db.answer opt key = some (expected (Session.accepted opt
        (project i (xs.map (Happening.move hn hash)))) key)) ∧
      ∃ db rest, DBImpl.openDb opt .sound (segmentName path i)
          (segments' i).db.fileManager.disk ReadBuffer.empty = some (.kOk, db, rest) ∧
        ∀ key, db.answer opt key = some (expected (Session.accepted opt
          (project i (xs.map (Happening.move hn hash)))) key) := by
    intro i
    obtain ⟨L, h, htomb, hreply⟩ := exists_replying (hname i) (fresh_of_openNew hopened i)
      ((meets_moves hroomy).project hmoves i) ((meets_moves hreleases).project hmoves i)
      (hmoves.project i)
    exact h.exists_answers (hname i) htomb hreply
  -- The segment of a key knows all its writes.
  have hexpected : ∀ key, expected (Session.accepted opt
      (project (getDB hn hash key) (xs.map (Happening.move hn hash)))) key =
        expected (accepted opt xs) key := by
    intro key
    rw [expected, written_project, expected]
  choose hanswer dbs rests hopen hanswer' using hsegment
  refine ⟨fun key => ?_, dbs, fun i => ⟨rests i, hopen i⟩, fun key => ?_⟩
  · rw [answer, hanswer, hexpected]
  · rw [answer, hanswer', hexpected]

omit [Platform] in
/-- The path of a segment tells the path of its database and its number. -/
theorem segmentPath_inj {path' : Bytes} {i i' : ℕ} (h : segmentPath path i = segmentPath path' i') :
    path = path' ∧ i = i' := by
  have hdot : ascii ['.', 's', 'e', 'g', '.'] = ascii ['.', 's', 'e', 'g'] ++ ascii ['.'] := rfl
  rw [segmentPath, segmentPath, hdot, ← List.append_assoc, ← List.append_assoc] at h
  obtain ⟨hpath, hi⟩ := append_dot_decimal_inj (List.append_cancel_right h)
  exact ⟨List.append_cancel_right hpath, hi⟩

open MetadataManager in
/-- Two segments, of one database or of two, share no file. -/
theorem apart_segments {path' : Bytes} {i i' : ℕ} (h : ¬ (path = path' ∧ i = i')) :
    Accepts (segmentPath path i) (createDatabase (segmentName path i)) ∧
      Accepts (segmentPath path' i') (createDatabase (segmentName path' i')) ∧
      Apart (segmentPath path i) (segmentPath path' i')
        (createDatabase (segmentName path i)) (createDatabase (segmentName path' i')) := by
  have haccepts : ∀ (p : Bytes) (j : ℕ),
      Accepts (segmentPath p j) (createDatabase (segmentName p j)) := by
    intro p j
    refine accepts_iff.mpr ⟨⟨98, ?_, by decide⟩, by rw [segmentName, nameOf_eq_stem]⟩
    rw [segmentPath, List.getLast?_append]
    rfl
  refine ⟨haccepts path i, haccepts path' i', apart_of_suffix (haccepts path i) (haccepts path' i')
    (fun heq => h (segmentPath_inj heq)) ?_ ?_⟩
  · exact List.suffix_append _ _
  · exact List.suffix_append _ _

end

open scoped Reference

/-- Two segments that route by the length of the key. The process dies within a `Put`, when the
compaction of one segment has copied a record and not installed it. The next process dies when it
has installed a copy there. -/
def twoSegments : List (Happening 2) :=
  [.write (.put [1] [7]), .write (.put [1, 2] [8]), .write (.put [1] [9]), .compact (.last 1)] ++
    List.replicate 8 (.block (.last 1)) ++
    [.crash (fun _ => false) (some (.put [3, 4] [9])), .write (.put [2] [6]), .compact (.last 1)] ++
    List.replicate 12 (.block (.last 1)) ++ [.crash (fun _ => false) none, .get false [1, 2],
      .write (.delete [1])]

theorem answer_of_crashes_twoSegments : ∃ segments : Fin 2 → Session,
    (∀ key, answer (by decide) List.length Reference.options (fun i => (segments i).db) key =
      some (expected (accepted Reference.options twoSegments) key)) ∧
    ∃ dbs : Fin 2 → DBImpl, (∀ i : Fin 2, ∃ rest, DBImpl.openDb Reference.options .sound
        (segmentName [120] i) (segments i).db.fileManager.disk ReadBuffer.empty =
          some (.kOk, dbs i, rest)) ∧
      ∀ key, answer (by decide) List.length Reference.options dbs key =
        some (expected (accepted Reference.options twoSegments) key) := by
  have hsome : ((openNew Reference.options 2 [120]).bind fun segments =>
      twoSegments.foldlM (step (by decide) List.length Reference.options [120])
        segments).isSome := by decide +kernel
  rcases hopened : openNew Reference.options 2 [120] with _ | segments
  · rw [hopened] at hsome
    cases hsome
  rw [hopened] at hsome
  obtain ⟨segments', hrun⟩ := Option.isSome_iff_exists.mp hsome
  have hcheck : ((openNew Reference.options 2 [120]).map fun segments =>
      check (step (by decide) List.length Reference.options [120])
        (Guard (by decide) List.length fun s f => Roomy Reference.options s f ∧ Keeping s f)
          segments twoSegments).getD true = true := by decide +kernel
  rw [hopened, Option.map_some, Option.getD_some] at hcheck
  have hmeets := meets_of_check hcheck
  exact ⟨segments', answer_of_crashes (by decide) hopened
    (hmeets.mono fun _ _ hg i f hf => (hg i f hf).1)
    (hmeets.mono fun _ _ hg i f hf => (hg i f hf).2.releases) hrun⟩

end PedroDB.SegmentDB
