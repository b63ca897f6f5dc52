import PedroDB.DBImpl
import PedroDB.Lib.Once

/-!
# Compaction tasks and file states

`UpdateUnused` counts dead bytes and queues a file for compaction when it has enough of
them. Nothing else queues a file.

## Main definitions

* `DBImpl.Hints` — the part of the state that the scheduling of compactions is about
* `DBImpl.Counts` — what a write does to it
* `DBImpl.Hints.Tracked` — a file whose task is somewhere is not taken for idle
* `DBImpl.Hints.Owned` — a file that is not taken for idle has its task somewhere

## Main results

* `DBImpl.updateUnused_hints` — the cases of `UpdateUnused`
* `DBImpl.updateIndex_counts`, `DBImpl.openDb_hints` — what writes and the recovery do
-/

namespace PedroDB.DBImpl

/-- The tasks that wait for a poll, and what is known about each file. -/
structure Hints where
  tasks : List ℕ
  states : ℕ → FileState

def hints (db : DBImpl) : Hints := ⟨db.compactTasks, db.fileStates⟩

/-- `UpdateUnused`, as far as the hints go. -/
def Hints.updateUnused (opt : Options) (id unused : ℕ) (h : Hints) : Hints :=
  let hint := h.states id
  let hint := { hint with free_bytes := hint.free_bytes + unused }
  if opt.threshold_bytes ≤ hint.free_bytes ∧ hint.compact_state = .kNop then
    { tasks := h.tasks ++ [id]
      states := Function.update h.states id { hint with compact_state := .kQueued } }
  else { h with states := Function.update h.states id hint }

/-- The hints are as before, or were changed by `UpdateUnused`. -/
def Counts (opt : Options) (h h' : Hints) : Prop :=
  h' = h ∨ ∃ id unused, h' = h.updateUnused opt id unused

variable {opt : Options} {db db' : DBImpl} {w : Write} {loc : Location} {h h' : Hints}
  {id unused : ℕ}

theorem updateUnused_hints (opt : Options) (loc : Location) (unused : ℕ) (db : DBImpl) :
    (updateUnused opt loc unused db).hints = db.hints.updateUnused opt loc.id unused := by
  unfold updateUnused Hints.updateUnused hints
  dsimp only
  split_ifs <;> rfl

/-- `UpdateUnused` either queues the file, which then has enough dead bytes and was not
queued, or only counts. -/
theorem Hints.updateUnused_cases (opt : Options) (h : Hints) (id unused : ℕ) :
    ((h.states id).compact_state = .kNop ∧
      h.updateUnused opt id unused = ⟨h.tasks ++ [id], Function.update h.states id
        ⟨(h.states id).free_bytes + unused, .kQueued⟩⟩) ∨
    (¬ (opt.threshold_bytes ≤ (h.states id).free_bytes + unused ∧
        (h.states id).compact_state = .kNop) ∧
      h.updateUnused opt id unused = ⟨h.tasks, Function.update h.states id
        ⟨(h.states id).free_bytes + unused, (h.states id).compact_state⟩⟩) := by
  unfold Hints.updateUnused
  dsimp only
  split_ifs with hqueue
  · exact Or.inl ⟨hqueue.2, rfl⟩
  · exact Or.inr ⟨hqueue, rfl⟩

/-! ### Where the tasks are -/

section Places

variable {ι : Type*} {place place' : ι → List ℕ} {q : ι}

/-- The tasks of the hints are at place `q`; no task is twice anywhere, and a file whose
task is somewhere is not in state `kNop`. -/
structure Hints.Tracked (h : Hints) (q : ι) (place : ι → List ℕ) : Prop where
  tasks : place q = h.tasks
  once : Once place
  busy : ∀ id, Somewhere place id → (h.states id).compact_state ≠ .kNop

/-- A file with enough dead bytes is not in state `kNop`, and a file that is not in this
state has its task somewhere. -/
structure Hints.Owned (opt : Options) (h : Hints) (place : ι → List ℕ) : Prop where
  eligible : ∀ id, opt.threshold_bytes ≤ (h.states id).free_bytes →
    (h.states id).compact_state ≠ .kNop
  owned : ∀ id, (h.states id).compact_state ≠ .kNop → Somewhere place id

theorem Hints.tracked_default : (⟨[], fun _ => FileState.default⟩ : Hints).Tracked ()
    fun _ => [] where
  tasks := rfl
  once := ⟨fun _ => List.nodup_nil, fun _ _ _ _ _ => rfl⟩
  busy := by rintro id ⟨_, hid⟩; cases hid

theorem Hints.owned_default (hpos : 0 < opt.threshold_bytes) :
    (⟨[], fun _ => FileState.default⟩ : Hints).Owned opt fun _ : Unit => [] where
  eligible := by
    intro id hle
    exact absurd hpos (Nat.not_lt.mpr hle)
  owned := by
    intro id hne
    exact absurd rfl hne

/-- Tasks move or leave, and no state of a task that stays becomes `kNop`. -/
theorem Hints.Tracked.of_once (htracked : h.Tracked q place) (htasks : place' q = h'.tasks)
    (honce : Once place') (hsome : ∀ id, Somewhere place' id → Somewhere place id)
    (hstates : ∀ id, Somewhere place' id → (h.states id).compact_state ≠ .kNop →
      (h'.states id).compact_state ≠ .kNop) : h'.Tracked q place' :=
  ⟨htasks, honce, fun id hid => hstates id hid (htracked.busy id (hsome id hid))⟩

/-- The state of one file changes, and no other file gets a task. -/
theorem Hints.Tracked.update (htracked : h.Tracked q place) {state : FileState} {tasks : List ℕ}
    (htasks : place' q = tasks) (honce : Once place')
    (hsome : ∀ x, x ≠ id → Somewhere place' x → Somewhere place x)
    (hbusy : Somewhere place' id → state.compact_state ≠ .kNop) :
    (⟨tasks, Function.update h.states id state⟩ : Hints).Tracked q place' := by
  refine ⟨htasks, honce, fun x hx => ?_⟩
  by_cases hxid : x = id
  · subst hxid
    simp only [Function.update_self]
    exact hbusy hx
  · simp only [Function.update_of_ne hxid]
    exact htracked.busy x (hsome x hxid hx)

/-- The state of one file changes, and no other file loses its task. -/
theorem Hints.Owned.update (howned : h.Owned opt place) {state : FileState} {tasks : List ℕ}
    (hsome : ∀ x, x ≠ id → Somewhere place x → Somewhere place' x)
    (heligible : opt.threshold_bytes ≤ state.free_bytes → state.compact_state ≠ .kNop)
    (hid : state.compact_state ≠ .kNop → Somewhere place' id) :
    (⟨tasks, Function.update h.states id state⟩ : Hints).Owned opt place' := by
  constructor
  · intro x hx
    by_cases hxid : x = id
    · subst hxid
      simp only [Function.update_self] at hx ⊢
      exact heligible hx
    · simp only [Function.update_of_ne hxid] at hx ⊢
      exact howned.eligible x hx
  · intro x hx
    by_cases hxid : x = id
    · subst hxid
      simp only [Function.update_self] at hx
      exact hid hx
    · simp only [Function.update_of_ne hxid] at hx
      exact hsome x hxid (howned.owned x hx)

variable [DecidableEq ι]

theorem somewhere_push {place : ι → List ℕ} {x : ℕ} :
    Somewhere (Function.update place q (place q ++ [id])) x ↔ Somewhere place x ∨ x = id := by
  constructor
  · rintro ⟨p, hp⟩
    by_cases hpq : p = q
    · subst hpq
      rw [Function.update_self, List.mem_append, List.mem_singleton] at hp
      exact hp.imp_left fun hp => ⟨p, hp⟩
    · rw [Function.update_of_ne hpq] at hp
      exact Or.inl ⟨p, hp⟩
  · rintro (⟨p, hp⟩ | rfl)
    · by_cases hpq : p = q
      · subst hpq
        exact ⟨p, by rw [Function.update_self]; exact List.mem_append_left _ hp⟩
      · exact ⟨p, by rw [Function.update_of_ne hpq]; exact hp⟩
    · exact ⟨q, by rw [Function.update_self]; simp⟩

/-- A file is queued only when its task is nowhere. -/
theorem Hints.Tracked.counts (htracked : h.Tracked q place) (hcounts : Counts opt h h') :
    h'.Tracked q (Function.update place q h'.tasks) := by
  rcases hcounts with rfl | ⟨id, unused, rfl⟩
  · rwa [← htracked.tasks, Function.update_eq_self]
  · rcases h.updateUnused_cases opt id unused with ⟨hnop, heq⟩ | ⟨-, heq⟩ <;> rw [heq]
    · have hnowhere : ¬ Somewhere place id := fun hid => htracked.busy id hid hnop
      have honce := htracked.once.push hnowhere q
      rw [htracked.tasks] at honce
      apply htracked.update (Function.update_self ..) honce
      · intro x hne hx
        rw [← htracked.tasks, somewhere_push] at hx
        exact hx.resolve_right hne
      · intro _
        simp
    · simp only [← htracked.tasks, Function.update_eq_self]
      exact htracked.update rfl htracked.once (fun _ _ hx => hx) (htracked.busy id)

/-- A file with enough dead bytes gets queued. -/
theorem Hints.Owned.counts (howned : h.Owned opt place) (htasks : place q = h.tasks)
    (hcounts : Counts opt h h') : h'.Owned opt (Function.update place q h'.tasks) := by
  rcases hcounts with rfl | ⟨id, unused, rfl⟩
  · rwa [← htasks, Function.update_eq_self]
  · rcases h.updateUnused_cases opt id unused with ⟨hnop, heq⟩ | ⟨hnot, heq⟩ <;> rw [heq]
    · -- The file is queued: it was not, and has enough unused bytes now.
      rw [← htasks]
      apply howned.update
      · intro x _ hx
        exact somewhere_push.mpr (Or.inl hx)
      · intro _
        simp
      · intro _
        exact somewhere_push.mpr (Or.inr rfl)
    · -- Only the number of unused bytes changes.
      simp only [← htasks, Function.update_eq_self]
      apply howned.update fun _ _ hx => hx
      · intro hle hnop
        exact hnot ⟨hle, hnop⟩
      · exact howned.owned id

end Places

variable [Platform]

/-- A write counts at most one record. -/
theorem updateIndex_counts (opt : Options) (w : Write) (loc : Location) (db : DBImpl) :
    Counts opt db.hints (updateIndex opt w loc db).2.hints := by
  unfold updateIndex
  dsimp only
  split
  · split_ifs
    · exact Or.inr ⟨_, _, updateUnused_hints _ _ _ _⟩
    · exact Or.inl rfl
  · next old _ =>
    have hcount := updateUnused_hints opt old.loc old.entry_size
      { db with maxFile := max db.maxFile loc.id }
    refine Or.inr ⟨old.loc.id, old.entry_size, ?_⟩
    split_ifs
    · exact hcount
    · exact hcount

/-! ### The recovery -/

section Recovery

variable {P : Hints → Prop} (hP : ∀ h id unused, P h → P (h.updateUnused opt id unused))

include hP

omit [Platform] in
private theorem updateUnused_keeps (hdb : P db.hints) (loc : Location) (unused : ℕ) :
    P (updateUnused opt loc unused db).hints :=
  updateUnused_hints opt loc unused db ▸ hP _ _ _ hdb

omit [Platform] in
theorem recoverEntry_hints {entry : IndexEntry} (hdb : P db.hints)
    (heq : recoverEntry opt id db entry = some db') : P db'.hints := by
  have hcount := fun loc unused => updateUnused_keeps hP hdb loc unused
  unfold recoverEntry at heq
  dsimp only at heq
  cases htype : entry.type with
  | kSet =>
    rw [htype] at heq
    dsimp only at heq
    split at heq
    · cases heq
      exact hdb
    · split_ifs at heq
      · cases heq
        exact hcount _ _
      · cases heq
        exact hcount _ _
  | kDelete =>
    rw [htype] at heq
    dsimp only at heq
    split at heq
    · cases heq
      exact hcount _ _
    · split_ifs at heq
      · cases heq
        exact hcount _ _
      · cases heq
        exact updateUnused_keeps hP (hcount _ _) _ _
  | kEmpty =>
    rw [htype] at heq
    cases heq
    exact hdb
  | other b =>
    rw [htype] at heq
    cases heq
    exact hdb

omit [Platform] in
theorem recoverEntries_hints {entries : List IndexEntry} (hdb : P db.hints)
    (heq : entries.foldlM (recoverEntry opt id) db = some db') : P db'.hints := by
  induction entries generalizing db with
  | nil =>
    cases heq
    exact hdb
  | cons entry entries ih =>
    rw [List.foldlM_cons] at heq
    obtain ⟨db₁, h₁, h₂⟩ := Option.bind_eq_some_iff.mp heq
    exact ih (recoverEntry_hints hP hdb h₁) h₂

theorem recoverFile_hints {status : Status} {buffer rest : ReadBuffer} (hdb : P db.hints)
    (heq : recoverFile opt id (db, buffer) = some (status, db', rest)) : P db'.hints := by
  unfold recoverFile at heq
  dsimp only at heq
  split at heq
  · obtain ⟨db₁, h₁, h₂⟩ := Option.map_eq_some_iff.mp heq
    cases h₂
    exact recoverEntries_hints hP hdb h₁
  · split at heq
    · obtain ⟨db₁, h₁, h₂⟩ := Option.map_eq_some_iff.mp heq
      cases h₂
      have hfold : P db₁.hints := recoverEntries_hints hP (by exact hdb) h₁
      exact hfold
    · cases heq
      exact hdb

theorem recoverFiles_hints {ids : List ℕ} {status : Status} {buffer rest : ReadBuffer}
    (hdb : P db.hints) (heq : recoverFiles opt ids (db, buffer) = some (status, db', rest)) :
    P db'.hints := by
  induction ids generalizing db buffer with
  | nil =>
    cases heq
    exact hdb
  | cons id ids ih =>
    rw [recoverFiles] at heq
    split at heq
    · cases heq
    · next s hfile =>
      have hs : P s.1.hints := recoverFile_hints hP (by exact hdb) hfile
      exact ih hs heq
    · next status' s _ hfile =>
      cases heq
      exact recoverFile_hints hP (by exact hdb) hfile

/-- What `UpdateUnused` preserves holds of every database that was just opened. -/
theorem openDb_hints {opens : OpenData} {name : Bytes} {disk : Disk} {status : Status}
    {buffer rest : ReadBuffer} (hfresh : P ⟨[], fun _ => FileState.default⟩)
    (hopen : openDb opt opens name disk buffer = some (status, db, rest)) : P db.hints := by
  unfold openDb at hopen
  split at hopen
  · cases hopen
  · dsimp only at hopen
    split at hopen
    · exact recoverFiles_hints hP (by exact hfresh) hopen
    · cases hopen
      exact hfresh

end Recovery

end PedroDB.DBImpl
