import Mathlib.Data.List.FinRange
import Mathlib.Data.List.OfFn
import PedroDB.DBImpl

/-!
# Segmented databases

A `SegmentDB` routes each key to one of its segments by the hash of the key, and iterates
over its segments one after another.

## Main definitions

* `DB` — a database as its callers see it
* `SegmentDB.db` — the database made of segments
* `DB.Yields` — what an iterator driven to its end yields
* `KeyMap`, `DB.Behaves` — a map with the statuses of `DBImpl`, and a database that
  behaves like one

## Main results

* `SegmentDB.behaves` — segments that behave like maps make a database that does
* `SegmentDB.yields` — the iteration of the segments, in order
-/

namespace PedroDB

/-- `DB`, with the state of a database and of its iterators. The booleans are
`use_read_cache` and `sync`. -/
structure DB (σ ι ε : Type*) where
  get : Bool → Key → σ → Reply × σ
  put : Bool → Key → Bytes → σ → Status × σ
  delete : Bool → Key → σ → Status × σ
  getIterator : σ → ι × σ
  /-- `Valid()` of an iterator. -/
  valid : ι → σ → Bool × ι × σ
  /-- `Next()` of an iterator. -/
  next : ι → ε × ι

variable {σ ι ε : Type*}

/-- The loop `while (it->Valid()) it->Next()` ends, and yields these entries. -/
inductive DB.Yields (db : DB σ ι ε) : ι → σ → List ε → Prop
  | done {it it' : ι} {s s' : σ} (hvalid : db.valid it s = (false, it', s')) : Yields db it s []
  | cons {it it' it'' : ι} {s s' : σ} {e : ε} {es : List ε}
      (hvalid : db.valid it s = (true, it', s')) (hnext : db.next it' = (e, it''))
      (hrest : Yields db it'' s' es) : Yields db it s (e :: es)

/-! ### Maps -/

/-- What the statuses of a database are about. -/
abbrev KeyMap := Key → Option Bytes

namespace KeyMap

def get (m : KeyMap) (key : Key) : Reply :=
  match m key with
  | none => ⟨.kNotFound, none⟩
  | some value => ⟨.kOk, some value⟩

def delete (m : KeyMap) (key : Key) : Status × KeyMap :=
  (if m key = none then .kNotFound else .kOk, Function.update m key none)

/-- Putting an empty value deletes the key. -/
def put (m : KeyMap) (key : Key) (value : Bytes) : Status × KeyMap :=
  if value = [] then m.delete key else (.kOk, Function.update m key (some value))

end KeyMap

/-- The database returns what a map would, in every state that stands for one. -/
structure DB.Behaves (db : DB σ ι ε) (Rep : σ → KeyMap → Prop) : Prop where
  get : ∀ use_read_cache key s m, Rep s m →
    (db.get use_read_cache key s).1 = m.get key ∧ Rep (db.get use_read_cache key s).2 m
  put : ∀ sync key value s m, Rep s m →
    (db.put sync key value s).1 = (m.put key value).1 ∧
      Rep (db.put sync key value s).2 (m.put key value).2
  delete : ∀ sync key s m, Rep s m →
    (db.delete sync key s).1 = (m.delete key).1 ∧ Rep (db.delete sync key s).2 (m.delete key).2

/-! ### The segmented database -/

/-- `IteratorImpl`: `db_index`, and `current` with the segment that `lock` holds. -/
structure SegmentDB.Iterator (n : ℕ) (ι : Type*) where
  dbIndex : ℕ
  current : Option (Fin n × ι)

namespace SegmentDB

section

variable {n : ℕ} (hn : 0 < n) (hash : Key → ℕ) (segment : DB σ ι ε)

/-- `GetDB(Hash(key))` -/
def getDB (key : Key) : Fin n := ⟨hash key % n, Nat.mod_lt _ hn⟩

/-- A call on one segment. -/
def onSegment {ρ : Type*} (i : Fin n) (call : σ → ρ × σ) (segments : Fin n → σ) :
    ρ × (Fin n → σ) :=
  ((call (segments i)).1, Function.update segments i (call (segments i)).2)

/-- The rounds of `Valid` that begin without a current iterator. -/
def validFrom (dbIndex : ℕ) (segments : Fin n → σ) : Bool × Iterator n ι × (Fin n → σ) :=
  if h : dbIndex < n then
    let (current, s) := segment.getIterator (segments ⟨dbIndex, h⟩)
    match segment.valid current s with
    | (true, current, s) =>
      (true, ⟨dbIndex + 1, some (⟨dbIndex, h⟩, current)⟩,
        Function.update segments ⟨dbIndex, h⟩ s)
    | (false, _, s) => validFrom (dbIndex + 1) (Function.update segments ⟨dbIndex, h⟩ s)
  else (false, ⟨dbIndex, none⟩, segments)
termination_by n - dbIndex

/-- `IteratorImpl::Valid` -/
def valid (it : Iterator n ι) (segments : Fin n → σ) : Bool × Iterator n ι × (Fin n → σ) :=
  match it.current with
  | none => validFrom segment it.dbIndex segments
  | some (i, current) =>
    match segment.valid current (segments i) with
    | (true, current, s) => (true, { it with current := some (i, current) },
        Function.update segments i s)
    | (false, _, s) => validFrom segment it.dbIndex (Function.update segments i s)

/-- `IteratorImpl::Next`; calling it without a current iterator is undefined. -/
def next [Inhabited ε] (it : Iterator n ι) : ε × Iterator n ι :=
  match it.current with
  | none => (default, it)
  | some (i, current) =>
    ((segment.next current).1, { it with current := some (i, (segment.next current).2) })

/-- `SegmentDB` -/
def db [Inhabited ε] : DB (Fin n → σ) (Iterator n ι) ε where
  get use_read_cache key := onSegment (getDB hn hash key) (segment.get use_read_cache key)
  put sync key value := onSegment (getDB hn hash key) (segment.put sync key value)
  delete sync key := onSegment (getDB hn hash key) (segment.delete sync key)
  getIterator segments := (⟨0, none⟩, segments)
  valid := valid segment
  next := next segment

end

section

variable {n : ℕ} {hn : 0 < n} {hash : Key → ℕ} {segment : DB σ ι ε}

/-! ### One map -/

/-- Every segment stands for a map, and together they stand for one: each key is looked
up in its own segment. -/
def Represents (hn : 0 < n) (hash : Key → ℕ) (Rep : σ → KeyMap → Prop) (segments : Fin n → σ)
    (m : KeyMap) : Prop :=
  ∃ maps : Fin n → KeyMap, (∀ i, Rep (segments i) (maps i)) ∧
    ∀ key, m key = maps (getDB hn hash key) key

variable {Rep : σ → KeyMap → Prop} {segments : Fin n → σ} {m : KeyMap} {key : Key}

/-- A change of one key in its own segment changes that key in the map of all. -/
private theorem represents_update {s : σ} {maps : Fin n → KeyMap} {v : Option Bytes}
    (hmaps : ∀ i, Rep (segments i) (maps i)) (hm : ∀ k, m k = maps (getDB hn hash k) k)
    (hs : Rep s (Function.update (maps (getDB hn hash key)) key v)) :
    Represents hn hash Rep (Function.update segments (getDB hn hash key) s)
      (Function.update m key v) := by
  refine ⟨Function.update maps (getDB hn hash key)
    (Function.update (maps (getDB hn hash key)) key v), fun i => ?_, fun k => ?_⟩
  · by_cases hi : i = getDB hn hash key
    · subst hi
      simpa using hs
    · simpa [Function.update_of_ne hi] using hmaps i
  · by_cases hk : k = key
    · subst hk
      simp
    · rw [Function.update_of_ne hk, hm k]
      by_cases hi : getDB hn hash k = getDB hn hash key
      · -- Another key of the same segment.
        simp [hi, Function.update_of_ne hk]
      · simp [Function.update_of_ne hi]

variable [Inhabited ε]

/-- Segments that behave like maps make a database that behaves like one map. -/
theorem behaves (h : segment.Behaves Rep) :
    (db hn hash segment).Behaves (Represents hn hash Rep) where
  get use_read_cache key segments m := by
    rintro ⟨maps, hmaps, hm⟩
    obtain ⟨hreply, hrep⟩ := h.get use_read_cache key _ _ (hmaps (getDB hn hash key))
    refine ⟨?_, maps, fun i => ?_, hm⟩
    · simp only [db, onSegment, hreply, KeyMap.get, hm key]
    · by_cases hi : i = getDB hn hash key
      · subst hi
        simpa [db, onSegment] using hrep
      · simpa [db, onSegment, Function.update_of_ne hi] using hmaps i
  put sync key value segments m := by
    rintro ⟨maps, hmaps, hm⟩
    obtain ⟨hstatus, hrep⟩ := h.put sync key value _ _ (hmaps (getDB hn hash key))
    by_cases hvalue : value = []
    · simp only [KeyMap.put, if_pos hvalue, KeyMap.delete] at hstatus hrep ⊢
      rw [hm key]
      exact ⟨hstatus, represents_update hmaps hm hrep⟩
    · simp only [KeyMap.put, if_neg hvalue] at hstatus hrep ⊢
      exact ⟨hstatus, represents_update hmaps hm hrep⟩
  delete sync key segments m := by
    rintro ⟨maps, hmaps, hm⟩
    obtain ⟨hstatus, hrep⟩ := h.delete sync key _ _ (hmaps (getDB hn hash key))
    simp only [KeyMap.delete] at hstatus hrep ⊢
    rw [hm key]
    exact ⟨hstatus, represents_update hmaps hm hrep⟩

/-! ### One iteration -/

omit [Inhabited ε] in
/-- What an iterator yields is decided by its next `Valid`. -/
theorem yields_congr {db : DB σ ι ε} {it it' : ι} {s s' : σ} {es : List ε}
    (h : db.Yields it s es) (hvalid : db.valid it' s' = db.valid it s) : db.Yields it' s' es := by
  cases h with
  | done hdone => exact .done (hvalid.trans hdone)
  | cons hmore hnext hrest => exact .cons (hvalid.trans hmore) hnext hrest

/-- The current segment is drained first. -/
private theorem yields_current {i : Fin n} {k : ℕ} {current : ι} {s : σ} {es rest : List ε}
    (h : segment.Yields current s es) (hs : segments i = s)
    (hrest : ∀ s', (db hn hash segment).Yields ⟨k, none⟩ (Function.update segments i s') rest) :
    (db hn hash segment).Yields ⟨k, some (i, current)⟩ segments (es ++ rest) := by
  induction h generalizing segments with
  | @done it it' s s' hdone =>
    refine yields_congr (hrest s') ?_
    simp only [db, valid, hs, hdone]
  | @cons it it' it'' s s' e es hmore hnext _ ih =>
    have hvalid : (db hn hash segment).valid ⟨k, some (i, it)⟩ segments =
        (true, ⟨k, some (i, it')⟩, Function.update segments i s') := by
      simp only [db, valid, hs, hmore]
    have hnext' : (db hn hash segment).next ⟨k, some (i, it')⟩ =
        (e, ⟨k, some (i, it'')⟩) := by
      simp only [db, next, hnext]
    refine .cons hvalid hnext' (ih (Function.update_self ..) fun t => ?_)
    rw [Function.update_idem]
    exact hrest t

/-- Opening the next segment changes nothing about what is valid. -/
private theorem valid_next {k : ℕ} (hk : k < n) :
    (db hn hash segment).valid ⟨k, none⟩ segments =
      (db hn hash segment).valid
        ⟨k + 1, some (⟨k, hk⟩, (segment.getIterator (segments ⟨k, hk⟩)).1)⟩
        (Function.update segments ⟨k, hk⟩ (segment.getIterator (segments ⟨k, hk⟩)).2) := by
  simp only [db, valid, Function.update_self, Function.update_idem]
  rw [validFrom, dif_pos hk]

/-- From segment `k` on, the iteration of the segments in order. -/
private theorem yields_from {es : Fin n → List ε} {k : ℕ}
    (hes : ∀ i : Fin n, k ≤ i → segment.Yields (segment.getIterator (segments i)).1
      (segment.getIterator (segments i)).2 (es i)) :
    (db hn hash segment).Yields ⟨k, none⟩ segments
      (((List.finRange n).drop k).flatMap es) := by
  induction hm : n - k generalizing k segments with
  | zero =>
    have hdrop : (List.finRange n).drop k = [] :=
      List.drop_eq_nil_of_le (by rw [List.length_finRange]; omega)
    have hvalid : (db hn hash segment).valid ⟨k, none⟩ segments =
        (false, ⟨k, none⟩, segments) := by
      simp only [db, valid]
      rw [validFrom, dif_neg (by omega)]
    rw [hdrop]
    exact .done hvalid
  | succ m ih =>
    -- Segment `k` is drained first.
    have hk : k < n := by omega
    have hdrop : (List.finRange n).drop k = ⟨k, hk⟩ :: (List.finRange n).drop (k + 1) := by
      rw [List.drop_eq_getElem_cons (by rw [List.length_finRange]; exact hk),
        List.getElem_finRange]
      rfl
    rw [hdrop, List.flatMap_cons]
    refine yields_congr (yields_current (hes ⟨k, hk⟩ le_rfl) (Function.update_self ..)
      fun s' => ?_) (valid_next hk)
    -- Draining segment `k` leaves the later ones as they were.
    refine ih (fun i hi => ?_) (by omega)
    rw [Function.update_idem, Function.update_of_ne (by rintro rfl; simp at hi)]
    exact hes i (by omega)

/-- Iteration over all segments yields the iteration of each, in order. -/
theorem yields {es : Fin n → List ε}
    (hes : ∀ i, segment.Yields (segment.getIterator (segments i)).1
      (segment.getIterator (segments i)).2 (es i)) :
    (db hn hash segment).Yields ((db hn hash segment).getIterator segments).1
      ((db hn hash segment).getIterator segments).2 ((List.finRange n).flatMap es) :=
  yields_from fun i _ => hes i

end

end SegmentDB
end PedroDB
