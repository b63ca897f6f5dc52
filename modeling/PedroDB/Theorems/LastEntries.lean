import PedroDB.Recovery
import PedroDB.Reference
import PedroDB.Session

/-!
# The last entry of a key

`Recovery` folds `Recovery(id, entry)` over index entries, file by file. Every entry stands
behind those that were folded before it, so the last one of a key decides about the key and
the victims are counted once.

## Main definitions

* `DBImpl.recoverLists` — the fold over the files
* `DBImpl.lastEntry` — the last entry of a key
* `DBImpl.Replayed` — an index and counters built from a list of entries

## Main results

* `DBImpl.Replayed.concat` — the recovery of one more entry
* `DBImpl.exists_recoverLists` — the recovery of all files
-/

namespace PedroDB.DBImpl

open LastWriter

variable {opt : Options} {db : DBImpl} {xs : List (Location × IndexEntry)} {id : ℕ}
  {e : IndexEntry} {key : Key} {ids : List ℕ} {entries : ℕ → List IndexEntry}

/-- `Recovery(id, entry)` for the entries of each file, one file after another; `none` is the
fatal exit. -/
def recoverLists (opt : Options) (ids : List ℕ) (entries : ℕ → List IndexEntry) (db : DBImpl) :
    Option DBImpl :=
  ids.foldlM (fun db id => (entries id).foldlM (recoverEntry opt id) db) db

/-- An index entry of file `id`, with the location of its record. -/
def place (id : ℕ) (e : IndexEntry) : Location × IndexEntry := (⟨id, e.offset⟩, e)

/-- All entries in the order in which they are recovered. -/
def placed (ids : List ℕ) (entries : ℕ → List IndexEntry) : List (Location × IndexEntry) :=
  ids.flatMap fun id => (entries id).map (place id)

/-- The last entry of the key. -/
def lastEntry (xs : List (Location × IndexEntry)) (key : Key) : Option (Location × IndexEntry) :=
  (xs.filter fun r => r.2.key = key).getLast?

/-- What an index keeps about the last entry of the key, if that sets it. -/
def lastDir (xs : List (Location × IndexEntry)) (key : Key) : Option Dir :=
  (lastEntry xs key).bind fun r =>
    if r.2.type = .kSet then some { entry_size := r.2.len, loc := r.1 } else none

/-- Index entries, as the records of a log. -/
def placeView : View (Location × IndexEntry) Key Location Dir where
  pos r := r.1
  key r := r.2.key
  sets r := r.2.type = .kSet
  entry r := { entry_size := r.2.len, loc := r.1 }

theorem lastEntry_concat (xs : List (Location × IndexEntry)) (r : Location × IndexEntry)
    (key : Key) : lastEntry (xs ++ [r]) key = if r.2.key = key then some r else lastEntry xs key := by
  unfold lastEntry
  by_cases hkey : r.2.key = key
  · simp [hkey]
  · simp [hkey]

theorem lastDir_concat (xs : List (Location × IndexEntry)) (r : Location × IndexEntry)
    (key : Key) : lastDir (xs ++ [r]) key =
      if key = r.2.key then
        if r.2.type = .kSet then some { entry_size := r.2.len, loc := r.1 } else none
      else lastDir xs key := by
  unfold lastDir
  rw [lastEntry_concat]
  by_cases hkey : r.2.key = key
  · rw [if_pos hkey, if_pos hkey.symm, Option.bind_some]
  · rw [if_neg hkey, if_neg (Ne.symm hkey)]

/-- What the index keeps stands in the list. -/
theorem lastDir_mem {dir : Dir} (h : lastDir xs key = some dir) :
    ∃ r ∈ xs, r.2.key = key ∧ placeView.entry r = dir := by
  obtain ⟨r, hlast, hdir⟩ := Option.bind_eq_some_iff.mp h
  have hmem := List.mem_filter.mp (List.mem_of_getLast? hlast)
  split_ifs at hdir
  exact ⟨r, hmem.1, of_decide_eq_true hmem.2, Option.some_inj.mp hdir⟩

/-- The index has the last entry of every key, and what it does not point at is counted as
free in its file. -/
structure Replayed (db : DBImpl) (xs : List (Location × IndexEntry)) : Prop where
  sorted : xs.Pairwise fun a b => a.1 < b.1
  find : ∀ key, db.find key = lastDir xs key
  free : ∀ f, (db.fileStates f).free_bytes =
    dead placeView (fun r => r.2.len) db.find (xs.filter fun r => r.1.id = f)

namespace Replayed

theorem empty (hfind : ∀ key, db.find key = none) (hfree : ∀ f, (db.fileStates f).free_bytes = 0) :
    db.Replayed [] where
  sorted := List.Pairwise.nil
  find := hfind
  free := hfree

/-- The entries of a file that the index entry of a key is about. -/
theorem pointed_eq (h : db.Replayed xs) (key : Key) (f : ℕ) :
    pointed placeView (fun r => r.2.len) db.find key (xs.filter fun r => r.1.id = f) =
      db.replaced key f := by
  rcases hfind : db.find key with _ | dir
  · rw [replaced_of_none hfind]
    exact pointed_of_none hfind
  · rw [replaced_of_some hfind]
    obtain ⟨r, hr, hkey, hentry⟩ := lastDir_mem ((h.find key).symm.trans hfind)
    subst hkey hentry
    split_ifs with hf
    · have hmem : r ∈ xs.filter fun r => r.1.id = f :=
        List.mem_filter.mpr ⟨hr, decide_eq_true hf.symm⟩
      have huniq : (xs.filter fun r => r.1.id = f).Pairwise fun a b =>
          placeView.entry a ≠ placeView.entry b :=
        (h.sorted.filter _).imp fun {a b} hlt heq => hlt.ne (congrArg Dir.loc heq)
      exact pointed_of_mem hmem hfind huniq
    · refine pointed_of_not_mem hfind fun x hx heq => hf ?_
      have hid : x.1.id = f := of_decide_eq_true (List.mem_filter.mp hx).2
      exact hid.symm.trans (congrArg (fun dir => dir.loc.id) heq)

/-- One more entry, behind all others. -/
theorem concat (opt : Options) (h : db.Replayed xs) (htype : e.type = .kSet ∨ e.type = .kDelete)
    (hnew : ∀ r ∈ xs, r.1 < ⟨id, e.offset⟩) :
    ∃ db', recoverEntry opt id db e = some db' ∧ db'.Replayed (xs ++ [place id e]) := by
  -- What the index leads to is among the entries in front.
  have hbehind : ∀ dir, db.find e.key = some dir → dir.loc < ⟨id, e.offset⟩ := by
    intro dir hdir
    obtain ⟨r, hr, -, rfl⟩ := lastDir_mem ((h.find e.key).symm.trans hdir)
    exact hnew r hr
  obtain ⟨tasks, states, indices, hentry, hfind, hfree⟩ := recoverEntry_eq opt htype hbehind
  let db' : DBImpl := { db with compactTasks := tasks, fileStates := states, indices }
  have hfind' : ∀ key, db'.find key = lastDir (xs ++ [place id e]) key := by
    intro key
    rw [lastDir_concat, ← h.find key]
    exact hfind key
  -- The old entry of the key dies; no entry in front of the new one is what the index keeps.
  have hdead : ∀ f, dead placeView (fun r => r.2.len) db'.find (xs.filter fun r => r.1.id = f) =
      dead placeView (fun r => r.2.len) db.find (xs.filter fun r => r.1.id = f) +
        db.replaced e.key f := by
    intro f
    rw [← h.pointed_eq]
    refine dead_repoint (fun k hk => (hfind k).trans (if_neg hk)) fun r hr _ hpoint => ?_
    have hlt := hnew r (List.mem_of_mem_filter hr)
    rw [show db'.find e.key = _ from hfind e.key, if_pos rfl] at hpoint
    split_ifs at hpoint
    have hloc : (⟨id, e.offset⟩ : Location) = r.1 :=
      congrArg Dir.loc (Option.some_inj.mp hpoint)
    exact hlt.ne hloc.symm
  refine ⟨db', hentry, List.pairwise_append.mpr ⟨h.sorted, List.pairwise_singleton _ _, ?_⟩,
    hfind', fun f => ?_⟩
  · intro a ha b hb
    rw [List.mem_singleton.mp hb]
    exact hnew a ha
  · have hstate : (db'.fileStates f).free_bytes = (states f).free_bytes := rfl
    rw [hstate, hfree, h.free, List.filter_append, dead_append, hdead]
    -- The new entry is dead unless it is a set entry.
    by_cases hf : f = id
    · subst hf
      have hself : ([place f e].filter fun r => r.1.id = f) = [place f e] := by simp [place]
      have hkey : db'.find (placeView.key (place f e)) =
          if e.type = .kSet then some (placeView.entry (place f e)) else none :=
        (hfind e.key).trans (if_pos rfl)
      rw [hself, dead_cons, dead_nil, hkey]
      by_cases hset : e.type = .kSet <;> simp [hset, place]
    · have hother : ([place id e].filter fun r => r.1.id = f) = [] := by
        simp [place, Ne.symm hf]
      rw [hother, dead_nil, if_neg fun hc => hf hc.2]

/-- The entries of one file, behind all others. -/
theorem append (opt : Options) (id : ℕ) {es : List IndexEntry} (h : db.Replayed xs)
    (htype : ∀ e ∈ es, e.type = .kSet ∨ e.type = .kDelete)
    (hoffset : es.Pairwise fun a b => a.offset < b.offset)
    (hnew : ∀ r ∈ xs, ∀ e ∈ es, r.1 < ⟨id, e.offset⟩) :
    ∃ db', es.foldlM (recoverEntry opt id) db = some db' ∧
      db'.Replayed (xs ++ es.map (place id)) := by
  induction es generalizing db xs with
  | nil => exact ⟨db, rfl, by simpa using h⟩
  | cons e es ih =>
    obtain ⟨hfirst, hoffset⟩ := List.pairwise_cons.mp hoffset
    obtain ⟨db₁, hentry, h₁⟩ := h.concat opt (htype e List.mem_cons_self) fun r hr =>
      hnew r hr e List.mem_cons_self
    have hnew₁ : ∀ r ∈ xs ++ [place id e], ∀ x ∈ es, r.1 < ⟨id, x.offset⟩ := by
      intro r hr x hx
      rcases List.mem_append.mp hr with hr | hr
      · exact hnew r hr x (List.mem_cons_of_mem _ hx)
      · rw [List.mem_singleton.mp hr]
        exact Location.lt_iff.mpr (Or.inr ⟨rfl, hfirst x hx⟩)
    obtain ⟨db', hfold, h'⟩ := ih h₁ (fun x hx => htype x (List.mem_cons_of_mem _ hx)) hoffset hnew₁
    refine ⟨db', ?_, by simpa using h'⟩
    rw [List.foldlM_cons, hentry]
    exact hfold

/-- The entries of files with ascending ids, behind all others. -/
theorem appendLists (opt : Options) (h : db.Replayed xs)
    (htype : ∀ id ∈ ids, ∀ e ∈ entries id, e.type = .kSet ∨ e.type = .kDelete)
    (hoffset : ∀ id ∈ ids, (entries id).Pairwise fun a b => a.offset < b.offset)
    (hids : ids.Pairwise (· < ·)) (hnew : ∀ r ∈ xs, ∀ id ∈ ids, r.1.id < id) :
    ∃ db', recoverLists opt ids entries db = some db' ∧
      db'.Replayed (xs ++ placed ids entries) := by
  induction ids generalizing db xs with
  | nil => exact ⟨db, rfl, by simpa [placed] using h⟩
  | cons id ids ih =>
    obtain ⟨hfirst, hids⟩ := List.pairwise_cons.mp hids
    obtain ⟨db₁, hfile, h₁⟩ := h.append opt id (htype id List.mem_cons_self)
      (hoffset id List.mem_cons_self) fun r hr e _ =>
        Location.lt_iff.mpr (Or.inl (hnew r hr id List.mem_cons_self))
    have hnew₁ : ∀ r ∈ xs ++ (entries id).map (place id), ∀ j ∈ ids, r.1.id < j := by
      intro r hr j hj
      rcases List.mem_append.mp hr with hr | hr
      · exact hnew r hr j (List.mem_cons_of_mem _ hj)
      · obtain ⟨e, -, rfl⟩ := List.mem_map.mp hr
        exact hfirst j hj
    obtain ⟨db', hfiles, h'⟩ := ih h₁ (fun j hj => htype j (List.mem_cons_of_mem _ hj))
      (fun j hj => hoffset j (List.mem_cons_of_mem _ hj)) hids hnew₁
    refine ⟨db', ?_, by simpa [placed] using h'⟩
    rw [recoverLists, List.foldlM_cons, hfile]
    exact hfiles

/-- An entry that the index points at is the one that the index keeps. -/
theorem points_iff {r : Location × IndexEntry} (h : db.Replayed xs) (hr : r ∈ xs) :
    (db.find r.2.key).map Dir.loc = some r.1 ↔ db.find r.2.key = some (placeView.entry r) := by
  constructor
  · intro hloc
    obtain ⟨dir, hdir, hloc⟩ := Option.map_eq_some_iff.mp hloc
    obtain ⟨r', hr', -, rfl⟩ := lastDir_mem ((h.find r.2.key).symm.trans hdir)
    have hnodup : (xs.map Prod.fst).Nodup :=
      List.pairwise_map.mpr (h.sorted.imp fun {a b} hlt => hlt.ne)
    have hsame : r' = r := List.inj_on_of_nodup_map hnodup hr' hr hloc
    rw [hdir, hsame]
  · intro hdir
    rw [hdir]
    rfl

end Replayed

/-- The entries of one file, among those of all files. -/
theorem filter_placed (hids : ids.Nodup) (f : ℕ) :
    ((placed ids entries).filter fun r => r.1.id = f) =
      if f ∈ ids then (entries f).map (place f) else [] := by
  induction ids with
  | nil => rfl
  | cons id ids ih =>
    obtain ⟨hid, hids⟩ := List.nodup_cons.mp hids
    have hcons : placed (id :: ids) entries = (entries id).map (place id) ++ placed ids entries :=
      List.flatMap_cons
    have hown : (((entries id).map (place id)).filter fun r => r.1.id = f) =
        if f = id then (entries id).map (place id) else [] := by
      by_cases hf : f = id
      · subst hf
        rw [if_pos rfl]
        refine List.filter_eq_self.mpr fun r hr => ?_
        obtain ⟨e, -, rfl⟩ := List.mem_map.mp hr
        exact decide_eq_true rfl
      · rw [if_neg hf]
        refine List.filter_eq_nil_iff.mpr fun r hr => ?_
        obtain ⟨e, -, rfl⟩ := List.mem_map.mp hr
        exact fun hid => hf (of_decide_eq_true hid).symm
    rw [hcons, List.filter_append, hown, ih hids]
    by_cases hf : f = id
    · subst hf
      simp [hid]
    · simp [hf]

/-- The recovery of any entries of any files does not meet two entries at one location. The
index has the last entry of every key that it does not delete, and the entries of a file that
the index does not point at are counted once each. -/
theorem exists_recoverLists (opt : Options) (files : Finset ℕ)
    (htype : ∀ id ∈ files, ∀ e ∈ entries id, e.type = .kSet ∨ e.type = .kDelete)
    (hoffset : ∀ id ∈ files, (entries id).Pairwise fun a b => a.offset < b.offset)
    (hfind : ∀ key, db.find key = none) (hfree : ∀ f, (db.fileStates f).free_bytes = 0) :
    ∃ db', recoverLists opt (files.sort (· ≤ ·)) entries db = some db' ∧
      (∀ key, db'.find key = lastDir (placed (files.sort (· ≤ ·)) entries) key) ∧
      (∀ f ∈ files, (db'.fileStates f).free_bytes =
        (((entries f).filter fun e => (db'.find e.key).map Dir.loc ≠ some ⟨f, e.offset⟩).map
          IndexEntry.len).sum) ∧
      ∀ f ∉ files, (db'.fileStates f).free_bytes = 0 := by
  have hmem : ∀ id, id ∈ files.sort (· ≤ ·) ↔ id ∈ files := fun id => Finset.mem_sort _
  obtain ⟨db', hrecover, h⟩ := (Replayed.empty hfind hfree).appendLists opt
    (fun id hid => htype id ((hmem id).mp hid)) (fun id hid => hoffset id ((hmem id).mp hid))
    (Finset.sortedLT_sort files).pairwise (by simp)
  rw [List.nil_append] at h
  -- The entries of one file are those of its list.
  have hfilter : ∀ f, ((placed (files.sort (· ≤ ·)) entries).filter fun r => r.1.id = f) =
      if f ∈ files.sort (· ≤ ·) then (entries f).map (place f) else [] :=
    filter_placed (Finset.sort_nodup files (· ≤ ·))
  refine ⟨db', hrecover, h.find, fun f hf => ?_, fun f hf => ?_⟩
  · have hin : f ∈ files.sort (· ≤ ·) := (hmem f).mpr hf
    have hdead := h.free f
    rw [hfilter f, if_pos hin, dead, List.filter_map, List.map_map] at hdead
    rw [hdead]
    refine congrArg List.sum (congrArg (List.map _) (List.filter_congr fun e he => ?_))
    have hplaced : place f e ∈ placed (files.sort (· ≤ ·)) entries :=
      List.mem_flatMap.mpr ⟨f, hin, List.mem_map_of_mem he⟩
    exact decide_eq_decide.mpr (not_congr (h.points_iff hplaced).symm)
  · -- A file that is not replayed has no entries.
    rw [h.free f, hfilter f, if_neg (mt (hmem f).mp hf), dead_nil]

open scoped Reference

/-- A key is set in file 1, set again there, and deleted in file 2; another one stays. -/
def twoFiles : ℕ → List IndexEntry
  | 1 => [⟨[107], .kSet, 0, 16⟩, ⟨[108], .kSet, 16, 16⟩, ⟨[107], .kSet, 32, 20⟩]
  | 2 => [⟨[107], .kDelete, 0, 15⟩]
  | _ => []

theorem exists_recoverLists_twoFiles : ∃ db',
    recoverLists Reference.options (Finset.sort ({1, 2} : Finset ℕ) (· ≤ ·)) twoFiles
      (Session.newDb Reference.options []) = some db' ∧
    (db'.fileStates 3).free_bytes = 0 := by
  have htype : ∀ id ∈ ({1, 2} : Finset ℕ), ∀ e ∈ twoFiles id,
      e.type = .kSet ∨ e.type = .kDelete := by decide
  have hfind : ∀ key, (Session.newDb Reference.options []).find key = none := fun _ => rfl
  obtain ⟨db', hrecover, -, -, hfree⟩ :=
    exists_recoverLists Reference.options {1, 2} htype (by decide) hfind fun _ => rfl
  exact ⟨db', hrecover, hfree 3 (by decide)⟩

/-- Recovered one after another, the entries of these files leave one key. -/
example : (recoverLists Reference.options [1, 2] twoFiles
    (Session.newDb Reference.options [])).map (fun db =>
      (db.find [107], db.find [108], (db.fileStates 1).free_bytes, (db.fileStates 2).free_bytes)) =
    some (none, some ⟨16, ⟨1, 16⟩⟩, 36, 15) := by
  decide

end PedroDB.DBImpl
