import PedroDB.Crash
import PedroDB.Lib.Product
import PedroDB.Paths
import PedroDB.SegmentDB

/-!
# A segmented database and its process

The segments of a `SegmentDB` are databases of their own, in one process. A call goes to the
segment of its key, the background work of the segments goes on in any order, and when the
process dies, all segments die with it, each at its own place.

## Main definitions

* `SegmentDB.segmentPath`, `SegmentDB.openNew` — where `Open` puts a segment, and `Open`
* `SegmentDB.Happening`, `SegmentDB.step` — the runs
* `SegmentDB.accepted` — the writes that were accepted
* `SegmentDB.answer` — what a `Get` reports, by the segment of its key

## Main results

* `SegmentDB.written_project` — a segment has all accepted writes of its keys
-/

namespace PedroDB.SegmentDB

open Transition

variable {n : ℕ}

/-- The path of a segment, `{path}.seg.{i}.db`. -/
def segmentPath (path : Bytes) (i : ℕ) : Bytes :=
  path ++ ascii ['.', 's', 'e', 'g', '.'] ++ decimal i ++ ascii ['.', 'd', 'b']

/-- The name that the segment gives itself. -/
def segmentName (path : Bytes) (i : ℕ) : Bytes := MetadataManager.nameOf (segmentPath path i)

/-- A call of the client, a piece of background work, or the death of the process. -/
inductive Happening (n : ℕ)
  | write (w : Write)
  | get (use_read_cache : Bool) (key : Key)
  /-- The executor calls `Compact()` of a segment. -/
  | compact (i : Fin n)
  | block (i : Fin n)
  | task (i : Fin n) (k : ℕ)
  /-- Some segments have just rolled over, and one may have a `Put` in progress. -/
  | crash (rolled : Fin n → Bool) (pending : Option Write)

section

variable (hn : 0 < n) (hash : Key → ℕ)

/-- Where a segment is when the process dies. -/
def deathOf (rolled : Fin n → Bool) (pending : Option Write) (i : Fin n) : Session.Death :=
  let elsewhere := if rolled i then .rolledOver else .between
  match pending with
  | some w => if getDB hn hash w.key = i then .appended w else elsewhere
  | none => elsewhere

/-- What it is for the segments. -/
def Happening.move : Happening n → Move (Fin n) Session.Fate
  | .write w => .one (getDB hn hash w.key) (.act (.write w))
  | .get use_read_cache key => .one (getDB hn hash key) (.act (.get use_read_cache key))
  | .compact i => .one i (.act .compact)
  | .block i => .one i (.act .block)
  | .task i k => .one i (.act (.task k))
  | .crash rolled pending => .all fun i => .crash (deathOf hn hash rolled pending i)

/-- `GetDB(Hash(key))->Get`, without the read cache. -/
def answer [Platform] (opt : Options) (segments : Fin n → DBImpl) (key : Key) : Option Reply :=
  (segments (getDB hn hash key)).answer opt key

variable [Platform] (opt : Options) (path : Bytes)

def step (segments : Fin n → Session) (x : Happening n) : Option (Fin n → Session) :=
  sideBySide (fun i => Session.fateStep opt (segmentName path i)) segments (x.move hn hash)

/-- `Open`, where no file is there yet: every segment opens, on a thread of its own. -/
def openNew (n : ℕ) (path : Bytes) : Option (Fin n → Session) :=
  if h : ∀ i : Fin n, (Session.fresh opt (segmentName path i)).isSome then
    some fun i => (Session.fresh opt (segmentName path i)).get (h i)
  else none

/-- A guard of sessions, for the segments that take part. -/
def Guard (g : Session → Session.Fate → Prop) (segments : Fin n → Session) (x : Happening n) :
    Prop :=
  Componentwise (fun _ => g) segments (x.move hn hash)

instance (g : Session → Session.Fate → Prop) [∀ s f, Decidable (g s f)]
    (segments : Fin n → Session) (x : Happening n) : Decidable (Guard hn hash g segments x) :=
  inferInstanceAs (Decidable (∀ i, ∀ f ∈ (x.move hn hash).at i, g (segments i) f))

/-- The writes that were accepted. -/
def accepted (xs : List (Happening n)) : List Session.Action :=
  xs.flatMap fun x =>
    match x with
    | .write w => Session.accepted opt [.act (.write w)]
    | .crash _ pending => (pending.map .write).toList
    | _ => []

end

/-! ### The writes of a segment -/

/-- The action writes this key. -/
def Writes (key : Key) : Session.Action → Bool
  | .write w => w.key = key
  | _ => false

/-- What is written at a key is decided by the writes to it. -/
theorem written_filter (as : List Session.Action) (key : Key) :
    Session.written (as.filter (Writes key)) key = Session.written as key := by
  induction as using List.reverseRecOn with
  | nil => rfl
  | append_singleton as a ih =>
    rw [List.filter_append]
    cases a with
    | write w =>
      rw [Session.written_write]
      by_cases hkey : key = w.key
      · rw [List.filter_singleton, show Writes key (.write w) = true by simp [Writes, hkey],
          cond_true, Session.written_write, if_pos hkey, if_pos hkey]
      · rw [List.filter_singleton, show Writes key (.write w) = false by
          simpa [Writes] using Ne.symm hkey, cond_false, List.append_nil, ih, if_neg hkey]
    | _ => simpa [Writes, Session.written] using ih

section

variable [Platform] {hn : 0 < n} {hash : Key → ℕ} {opt : Options} {key : Key}

/-- The writes to a key are those of its segment, happening by happening. -/
theorem filter_accepted (x : Happening n) :
    (Session.accepted opt ((x.move hn hash).at (getDB hn hash key)).toList).filter (Writes key) =
      (accepted opt [x]).filter (Writes key) := by
  -- A write goes to the segment of its key.
  have hother : ∀ {w : Write}, getDB hn hash w.key ≠ getDB hn hash key →
      Writes key (.write w) = false := by
    intro w hne
    refine decide_eq_false ?_
    rintro rfl
    exact hne rfl
  cases x with
  | write w =>
    simp only [Happening.move, Move.at, accepted, List.flatMap_singleton,
      Session.accepted_write]
    split_ifs with hi hbig hbig
    · simp [hbig]
    · simp [hbig]
    · rfl
    · simp [Session.accepted, hother hi]
  | crash rolled pending =>
    simp only [Happening.move, Move.at, accepted, List.flatMap_singleton, Option.toList_some,
      deathOf]
    rcases pending with _ | w
    · dsimp only
      split_ifs <;> rfl
    · dsimp only
      split_ifs with hi
      · rw [Session.accepted_appended]
        rfl
      · simp [Session.accepted, hother hi]
      · simp [Session.accepted, hother hi]
  | _ =>
    simp only [Happening.move, Move.at, accepted, List.flatMap_singleton]
    split_ifs <;> rfl

/-- A segment has all accepted writes of its keys. -/
theorem written_project (xs : List (Happening n)) (key : Key) :
    Session.written (Session.accepted opt
        (project (getDB hn hash key) (xs.map (Happening.move hn hash)))) key =
      Session.written (accepted opt xs) key := by
  rw [← written_filter, ← written_filter (accepted opt xs)]
  congr 1
  induction xs with
  | nil => rfl
  | cons x xs ih =>
    have hproject : project (getDB hn hash key) ((x :: xs).map (Happening.move hn hash)) =
        ((x.move hn hash).at (getDB hn hash key)).toList ++
          project (getDB hn hash key) (xs.map (Happening.move hn hash)) := by
      rw [List.map_cons, project, List.filterMap_cons]
      cases (x.move hn hash).at (getDB hn hash key) <;> rfl
    have haccepted : accepted opt (x :: xs) = accepted opt [x] ++ accepted opt xs := by
      simp only [accepted, List.flatMap_cons, List.flatMap_nil, List.append_nil]
    rw [hproject, Session.accepted, List.filterMap_append, List.filter_append, haccepted,
      List.filter_append]
    exact congrArg₂ (· ++ ·) (filter_accepted x) ih

variable {path : Bytes} {xs : List (Happening n)} {segments segments' : Fin n → Session}

theorem fresh_of_openNew (h : openNew opt n path = some segments) (i : Fin n) :
    Session.fresh opt (segmentName path i) = some (segments i) := by
  unfold openNew at h
  split_ifs at h
  obtain rfl := Option.some_inj.mp h
  rw [Option.some_get]

/-- What happens to the database is one move of its segments after another. -/
theorem run_iff : Run (step hn hash opt path) segments xs segments' ↔
    Run (sideBySide fun i : Fin n => Session.fateStep opt (segmentName path i)) segments
      (xs.map (Happening.move hn hash)) segments' := by
  rw [Run, Run, List.foldlM_map]
  rfl

theorem meets_moves {g : Session → Session.Fate → Prop}
    (h : Meets (step hn hash opt path) (Guard hn hash g) segments xs) :
    Meets (sideBySide fun i : Fin n => Session.fateStep opt (segmentName path i))
      (Componentwise fun _ => g) segments (xs.map (Happening.move hn hash)) := by
  intro pre m post t heq hpre
  obtain ⟨ys, zs, rfl, rfl, hzs⟩ := List.map_eq_append_iff.mp heq
  obtain ⟨x, zs', rfl, rfl, rfl⟩ := List.map_eq_cons_iff.mp hzs
  exact h ys x zs' t rfl (run_iff.mpr hpre)

end

end PedroDB.SegmentDB
