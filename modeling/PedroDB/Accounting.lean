import PedroDB.Lib.LastWriter
import PedroDB.Sound

/-!
# Dead bytes

Writing a record makes the record dead that the index pointed at before, and a tombstone
is dead from the beginning. This file counts the dead bytes of a file and says which of
them the database counts.

## Main definitions

* `recordView` — how records are read when an index is built from them
* `Log.records` — the records of a file with their locations
* `DBImpl.Catalogued` — the index points into these records
* `DBImpl.deadBytes` — the size of the records of a file that the index does not point at
* `DBImpl.replaced` — what becomes dead when a key gets a new entry

## Main results

* `DBImpl.Catalogued.deadBytes_eq` — the dead bytes after a key got a new entry
* `DBImpl.free_updateIndex` — what a write adds to `free_bytes`
-/

namespace PedroDB

open Framing LastWriter

/-- How records are read when an index is built from them. -/
def recordView : View (Location × Entry) Key Location Dir where
  pos r := r.1
  key r := r.2.key
  sets r := r.2.type = .kSet
  entry r := { entry_size := r.2.size, loc := r.1 }

@[simp] theorem recordView_pos (r : Location × Entry) : recordView.pos r = r.1 := rfl

@[simp] theorem recordView_key (r : Location × Entry) : recordView.key r = r.2.key := rfl

@[simp] theorem recordView_sets (r : Location × Entry) :
    recordView.sets r ↔ r.2.type = .kSet := Iff.rfl

@[simp] theorem recordView_entry (r : Location × Entry) :
    recordView.entry r = { entry_size := r.2.size, loc := r.1 } := rfl

/-- A record of file `id`, with its location. -/
def locate (id : ℕ) (r : ℕ × Entry) : Location × Entry := (⟨id, r.1⟩, r.2)

/-- The records of file `id` with their locations. -/
def Log.records (L : Log) (id : ℕ) : List (Location × Entry) :=
  (frames Entry.size (L id)).map (locate id)

section Records

variable {L : Log} {id o : ℕ} {e : Entry} {r : Location × Entry} {fr : List (ℕ × Entry)}

theorem mem_locate_iff : r ∈ fr.map (locate id) ↔ r.1.id = id ∧ (r.1.offset, r.2) ∈ fr := by
  rcases r with ⟨⟨j, p⟩, x⟩
  simp only [List.mem_map, locate, Prod.mk.injEq, Location.mk.injEq, Prod.exists]
  constructor
  · rintro ⟨q, y, hmem, ⟨rfl, rfl⟩, rfl⟩
    exact ⟨rfl, hmem⟩
  · rintro ⟨rfl, hmem⟩
    exact ⟨p, x, hmem, ⟨rfl, rfl⟩, rfl⟩

theorem Log.mem_records_iff : r ∈ L.records id ↔ r.1.id = id ∧ Located L r.1 r.2 := by
  rw [Log.records, mem_locate_iff, mem_frames_iff]
  refine and_congr_right fun hid => ?_
  rw [Located, hid]

theorem pairwise_locate (h : fr.Pairwise fun a b => a.1 < b.1) :
    (fr.map (locate id)).Pairwise fun a b => a.1 < b.1 := by
  refine List.pairwise_map.mpr (h.imp fun {a b} hlt => ?_)
  exact Location.lt_iff.mpr (Or.inr ⟨rfl, hlt⟩)

theorem Log.records_pairwise (L : Log) (id : ℕ) :
    (L.records id).Pairwise fun a b => a.1 < b.1 :=
  pairwise_locate (framesFrom_pairwise fun e _ => e.size_pos)

theorem Log.records_add (L : Log) (id j : ℕ) (e : Entry) :
    (L.add id e).records j =
      if j = id then L.records j ++ [(L.endOf id, e)] else L.records j := by
  by_cases hj : j = id
  · subst hj
    simp [Log.records, Log.add, frames, framesFrom_append, framesFrom, locate, Log.endOf]
  · simp only [Log.records, Log.add, Function.update_of_ne hj, if_neg hj]

end Records

namespace DBImpl

variable {db : DBImpl} {rs : ℕ → List (Location × Entry)} {key : Key} {f : ℕ}
  {index' : Key → Option Dir}

/-- The index points into these records, file by file. -/
structure Catalogued (db : DBImpl) (rs : ℕ → List (Location × Entry)) : Prop where
  located : ∀ id, ∀ r ∈ rs id, r.1.id = id
  sorted : ∀ id, (rs id).Pairwise fun a b => a.1 < b.1
  pointed : ∀ key dir, db.find key = some dir →
    ∃ r ∈ rs dir.loc.id, r.2.key = key ∧ recordView.entry r = dir

/-- The size of those of the records that the index does not point at. -/
def deadBytes (index : Key → Option Dir) (rs : List (Location × Entry)) : ℕ :=
  dead recordView (fun r => r.2.size) index rs

theorem deadBytes_concat (index : Key → Option Dir) (rs : List (Location × Entry))
    (r : Location × Entry) : deadBytes index (rs ++ [r]) = deadBytes index rs +
      if index r.2.key = some { entry_size := r.2.size, loc := r.1 } then 0 else r.2.size := by
  rw [deadBytes, dead_append, dead_cons, dead_nil, Nat.add_zero]
  rfl

/-- What becomes dead in file `f` when the key gets a new entry. -/
def replaced (db : DBImpl) (key : Key) (f : ℕ) : ℕ :=
  match db.find key with
  | none => 0
  | some dir => if f = dir.loc.id then dir.entry_size else 0

theorem replaced_of_none (h : db.find key = none) : db.replaced key f = 0 := by
  rw [replaced, h]

theorem replaced_of_some {dir : Dir} (h : db.find key = some dir) :
    db.replaced key f = if f = dir.loc.id then dir.entry_size else 0 := by
  rw [replaced, h]

namespace Catalogued

theorem pointed_eq (h : db.Catalogued rs) (key : Key) (f : ℕ) :
    LastWriter.pointed recordView (fun r => r.2.size) db.find key (rs f) =
      db.replaced key f := by
  unfold replaced
  rcases hfind : db.find key with _ | dir
  · exact pointed_of_none hfind
  · dsimp only
    obtain ⟨r, hr, hkey, hentry⟩ := h.pointed key dir hfind
    split_ifs with hf
    · subst hf hkey hentry
      have huniq : (rs (recordView.entry r).loc.id).Pairwise fun a b =>
          recordView.entry a ≠ recordView.entry b :=
        (h.sorted _).imp fun {a b} hlt heq => hlt.ne (congrArg Dir.loc heq)
      exact pointed_of_mem hr hfind huniq
    · refine pointed_of_not_mem hfind fun x hx heq => hf ?_
      rw [← heq]
      exact (h.located f x hx).symm

/-- When a key gets a new entry, the record of its old one is added to the dead bytes. -/
theorem deadBytes_eq (h : db.Catalogued rs) (hframe : ∀ k, k ≠ key → index' k = db.find k)
    (hnew : ∀ r ∈ rs f, r.2.key = key → index' key ≠ some (recordView.entry r)) :
    deadBytes index' (rs f) = deadBytes db.find (rs f) + db.replaced key f := by
  rw [← h.pointed_eq]
  exact dead_repoint hframe hnew

/-- The dead bytes before and after a key got a new entry. -/
theorem deadBytes_swap {db' : DBImpl} (key : Key) (h : db.Catalogued rs)
    (h' : db'.Catalogued rs) (hframe : ∀ k, k ≠ key → db'.find k = db.find k) (f : ℕ) :
    deadBytes db'.find (rs f) + db'.replaced key f =
      deadBytes db.find (rs f) + db.replaced key f := by
  have hnone : Function.update db.find key none = Function.update db'.find key none := by
    funext k
    by_cases hk : k = key
    · subst hk
      simp only [Function.update_self]
    · simp only [Function.update_of_ne hk, hframe k hk]
  rw [← h.deadBytes_eq (fun k hk => Function.update_of_ne hk none db.find) (by simp),
    ← h'.deadBytes_eq (fun k hk => Function.update_of_ne hk none db'.find) (by simp), hnone]

end Catalogued

variable [Platform] {opt : Options} {L : Log} {w : Write} {loc : Location}

/-- In a sound state the index points into the data files. -/
theorem Sound.catalogued (h : db.Sound L) : db.Catalogued L.records where
  located := fun id r hr => (Log.mem_records_iff.mp hr).1
  sorted := L.records_pairwise
  pointed := by
    intro key dir hfind
    obtain ⟨e, hloc, hkey, -, hsize⟩ := h.pointed key dir hfind
    refine ⟨(dir.loc, e), Log.mem_records_iff.mpr ⟨rfl, hloc⟩, hkey, ?_⟩
    simp only [recordView, ← hsize]

omit [Platform] in
theorem free_updateUnused (opt : Options) (loc : Location) (n : ℕ) (db : DBImpl) (f : ℕ) :
    ((updateUnused opt loc n db).fileStates f).free_bytes =
      (db.fileStates f).free_bytes + if f = loc.id then n else 0 := by
  by_cases hf : f = loc.id
  · subst hf
    rw [if_pos rfl]
    unfold updateUnused
    dsimp only
    split_ifs <;> simp
  · rw [if_neg hf, Nat.add_zero]
    unfold updateUnused
    dsimp only
    split_ifs <;> simp [hf]

/-- A write counts the record that it makes dead, and its own one only if it deletes an
absent key. -/
theorem free_updateIndex (opt : Options) (w : Write) (loc : Location) (db : DBImpl) (f : ℕ) :
    (((updateIndex opt w loc db).2.fileStates f).free_bytes =
      (db.fileStates f).free_bytes + db.replaced w.key f +
        if (w.value = [] ∧ db.find w.key = none) ∧ f = loc.id then (entryOf opt w).sizeOf
        else 0) := by
  simp only [updateIndex, replaced]
  have hfind : ({ db with maxFile := max db.maxFile loc.id } : DBImpl).find w.key =
      db.find w.key := rfl
  rcases hold : db.find w.key with _ | old <;> rw [hold] at hfind <;> simp only [hfind]
  · by_cases hv : w.value = []
    · simp [hv, free_updateUnused]
    · simp [hv]
  · by_cases hv : w.value = [] <;> simp [hv, free_updateUnused]

end DBImpl
end PedroDB
