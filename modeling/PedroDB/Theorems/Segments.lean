import PedroDB.SegmentDB

/-!
# A segmented database is one database

## Main definitions

* `DB.Call`, `DB.run` — sequences of calls and what they return

## Main results

* `SegmentDB.run_eq` — every sequence of calls returns what one map would return, and
  iteration yields the iterations of the segments, in order
-/

namespace PedroDB

/-- One call, with its options. -/
inductive DB.Call
  | get (use_read_cache : Bool) (key : Key)
  | put (sync : Bool) (key : Key) (value : Bytes)
  | delete (sync : Bool) (key : Key)

variable {σ ι ε : Type*}

/-- What a call returns, and the state after it. -/
def DB.call (db : DB σ ι ε) (s : σ) : Call → Reply × σ
  | .get use_read_cache key => db.get use_read_cache key s
  | .put sync key value => (⟨(db.put sync key value s).1, none⟩, (db.put sync key value s).2)
  | .delete sync key => (⟨(db.delete sync key s).1, none⟩, (db.delete sync key s).2)

/-- What a sequence of calls returns, and the state after it. -/
def DB.run (db : DB σ ι ε) : σ → List Call → List Reply × σ
  | s, [] => ([], s)
  | s, c :: cs => ((db.call s c).1 :: (db.run (db.call s c).2 cs).1, (db.run (db.call s c).2 cs).2)

namespace KeyMap

/-- What a map returns for a call, and the map after it. -/
def call (m : KeyMap) : DB.Call → Reply × KeyMap
  | .get _ key => (m.get key, m)
  | .put _ key value => (⟨(m.put key value).1, none⟩, (m.put key value).2)
  | .delete _ key => (⟨(m.delete key).1, none⟩, (m.delete key).2)

/-- What a map returns for a sequence of calls, and the map after it. -/
def run : KeyMap → List DB.Call → List Reply × KeyMap
  | m, [] => ([], m)
  | m, c :: cs => ((m.call c).1 :: (run (m.call c).2 cs).1, (run (m.call c).2 cs).2)

end KeyMap

namespace DB.Behaves

variable {db : DB σ ι ε} {Rep : σ → KeyMap → Prop} {s : σ} {m : KeyMap}

theorem call_eq (h : db.Behaves Rep) (hrep : Rep s m) (c : Call) :
    (db.call s c).1 = (m.call c).1 ∧ Rep (db.call s c).2 (m.call c).2 := by
  cases c with
  | get use_read_cache key => exact h.get use_read_cache key s m hrep
  | put sync key value =>
    obtain ⟨hstatus, hrep'⟩ := h.put sync key value s m hrep
    exact ⟨by simp only [DB.call, KeyMap.call, hstatus], hrep'⟩
  | delete sync key =>
    obtain ⟨hstatus, hrep'⟩ := h.delete sync key s m hrep
    exact ⟨by simp only [DB.call, KeyMap.call, hstatus], hrep'⟩

/-- A database that behaves like a map returns what the map would, call after call. -/
theorem run_represents (h : db.Behaves Rep) (hrep : Rep s m) (cs : List Call) :
    (db.run s cs).1 = (m.run cs).1 ∧ Rep (db.run s cs).2 (m.run cs).2 := by
  induction cs generalizing s m with
  | nil => exact ⟨rfl, hrep⟩
  | cons c cs ih =>
    obtain ⟨hreply, hrep'⟩ := h.call_eq hrep c
    obtain ⟨hrest, hend⟩ := ih hrep'
    exact ⟨by rw [DB.run, KeyMap.run, hreply, hrest], hend⟩

end DB.Behaves

namespace SegmentDB

/-- Whatever the number of segments and the hash function: if every segment behaves like a
map, the calls on the segmented database return what the single map returns that has each
key from its own segment, and iteration yields the entries of the segments, in order. -/
theorem run_eq [Inhabited ε] {n : ℕ} (hn : 0 < n) (hash : Key → ℕ) {segment : DB σ ι ε}
    {Rep : σ → KeyMap → Prop} (h : segment.Behaves Rep) {segments : Fin n → σ}
    {maps : Fin n → KeyMap} (hmaps : ∀ i, Rep (segments i) (maps i)) (cs : List DB.Call) :
    ((db hn hash segment).run segments cs).1 =
        (KeyMap.run (fun key => maps (getDB hn hash key) key) cs).1 ∧
      ∀ (segments : Fin n → σ) (es : Fin n → List ε),
        (∀ i, segment.Yields (segment.getIterator (segments i)).1
          (segment.getIterator (segments i)).2 (es i)) →
        (db hn hash segment).Yields ((db hn hash segment).getIterator segments).1
          ((db hn hash segment).getIterator segments).2 ((List.finRange n).flatMap es) :=
  ⟨((behaves h).run_represents ⟨maps, hmaps, fun _ => rfl⟩ cs).1, fun _ _ hes => yields hes⟩

/-- A segment that is an association list, and iterates over its entries. -/
def listDB : DB (AList fun _ : Key => Bytes) (List (Key × Bytes)) (Key × Bytes) where
  get _ key s := (KeyMap.get s.lookup key, s)
  put _ key value s :=
    ((KeyMap.put s.lookup key value).1,
      if value = [] then s.erase key else s.insert key value)
  delete _ key s := ((KeyMap.delete s.lookup key).1, s.erase key)
  getIterator s := (s.entries.map fun x => (x.1, x.2), s)
  valid it s := (!it.isEmpty, it, s)
  next it := (it.headD default, it.tail)

theorem listDB_behaves : listDB.Behaves fun s m => s.lookup = m where
  get _ key s m := by
    rintro rfl
    exact ⟨rfl, rfl⟩
  put _ key value s m := by
    rintro rfl
    refine ⟨rfl, ?_⟩
    ext1 k
    -- A put without value is a delete.
    by_cases hvalue : value = []
    · simp only [listDB, if_pos hvalue, KeyMap.put, KeyMap.delete]
      by_cases hk : k = key
      · subst hk
        simp
      · simp [Function.update_of_ne hk, AList.lookup_erase_ne hk]
    · simp only [listDB, if_neg hvalue, KeyMap.put]
      by_cases hk : k = key
      · subst hk
        simp
      · simp [Function.update_of_ne hk, AList.lookup_insert_ne hk]
  delete _ key s m := by
    rintro rfl
    refine ⟨rfl, ?_⟩
    ext1 k
    simp only [listDB, KeyMap.delete]
    by_cases hk : k = key
    · subst hk
      simp
    · simp [Function.update_of_ne hk, AList.lookup_erase_ne hk]

/-- Two segments that route by the length of the key. -/
theorem run_eq_listDB :
    ((db (by decide : 0 < 2) List.length listDB).run (fun _ => ∅)
        [.put false [1] [7], .put false [1, 2] [8], .delete false [1], .get true [1, 2]]).1 =
      (KeyMap.run (fun _ => none)
        [.put false [1] [7], .put false [1, 2] [8], .delete false [1], .get true [1, 2]]).1 ∧
    ∀ (segments : Fin 2 → AList fun _ : Key => Bytes) (es : Fin 2 → List (Key × Bytes)),
      (∀ i, listDB.Yields (listDB.getIterator (segments i)).1
        (listDB.getIterator (segments i)).2 (es i)) →
      (db (by decide : 0 < 2) List.length listDB).Yields
        ((db (by decide : 0 < 2) List.length listDB).getIterator segments).1
        ((db (by decide : 0 < 2) List.length listDB).getIterator segments).2
        ((List.finRange 2).flatMap es) :=
  run_eq (by decide) List.length listDB_behaves (fun _ => rfl) _

end SegmentDB
end PedroDB
