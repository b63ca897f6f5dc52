import Mathlib.Data.List.Basic
import PedroDB.Defines

/-!
# The LRU cache

The ring of an `LRUCache` from `lru_.next` to `lru_.prev` is a list whose head is the
oldest entry; `keys_` maps each key to its node of the ring.

## Main definitions

* `LRUCache` with `get`, `remove`, `evict`, `put`
* `LRUCache.WF` — what the map of nodes amounts to
* `SegmentCache` with `getOrCompute`

## Main results

* `LRUCache.mem_put`, `LRUCache.mem_get` — no operation invents an entry
* `SegmentCache.getOrCompute_of_kOk` — a value is cached or supplied
-/

namespace PedroDB

/-- The entries of the ring, the least recently used one first. -/
structure LRUCache (κ ν : Type*) where
  capacity : ℕ
  entries : List (κ × ν)

namespace LRUCache

variable {κ ν : Type*} [DecidableEq κ] {c : LRUCache κ ν} {key : κ} {value : ν} {x : κ × ν}

/-- The constructor. -/
def create (capacity : ℕ) : LRUCache κ ν := { capacity, entries := [] }

def find (c : LRUCache κ ν) (key : κ) : Option ν :=
  (c.entries.find? fun x => x.1 = key).map Prod.snd

/-- Unlink the node of `key`. -/
def unlink (c : LRUCache κ ν) (key : κ) : LRUCache κ ν :=
  { c with entries := c.entries.eraseP fun x => x.1 = key }

/-- Link a node in front of `lru_`, as the most recently used one. -/
def link (c : LRUCache κ ν) (key : κ) (value : ν) : LRUCache κ ν :=
  { c with entries := c.entries ++ [(key, value)] }

def get (c : LRUCache κ ν) (key : κ) : Option ν × LRUCache κ ν :=
  if c.capacity = 0 then (none, c)
  else
    match c.find key with
    | none => (none, c)
    | some value => (some value, (c.unlink key).link key value)

def remove (c : LRUCache κ ν) (key : κ) : Option ν × LRUCache κ ν :=
  if c.capacity = 0 then (none, c)
  else
    match c.find key with
    | none => (none, c)
    | some value => (some value, c.unlink key)

/-- `Evict`. The source returns at once when `keys_` is not empty. -/
def evict (c : LRUCache κ ν) : LRUCache κ ν :=
  if c.entries ≠ [] then c else { c with entries := c.entries.tail }

def put (c : LRUCache κ ν) (key : κ) (value : ν) : LRUCache κ ν :=
  if c.capacity = 0 then c
  else
    match c.find key with
    | some _ => (c.unlink key).link key value
    | none => (if c.entries.length + 1 = c.capacity then c.evict else c).link key value

omit [DecidableEq κ] in
theorem evict_eq (c : LRUCache κ ν) : c.evict = c := by
  unfold evict
  split_ifs with hne
  · rfl
  · cases c
    simp only [ne_eq, not_not] at hne
    simp only [hne, List.tail_nil]

theorem put_of_new (hcap : c.capacity ≠ 0) (hnew : c.find key = none) :
    c.put key value = c.link key value := by
  simp only [put, if_neg hcap, hnew, evict_eq, ite_self]

theorem find_mem (h : c.find key = some value) : (key, value) ∈ c.entries := by
  obtain ⟨⟨k, v⟩, hfind, hv⟩ := Option.map_eq_some_iff.mp h
  have hk : k = key := by simpa using List.find?_some hfind
  subst hk
  obtain rfl : v = value := hv
  exact List.mem_of_find?_eq_some hfind

theorem mem_unlink (h : x ∈ (c.unlink key).entries) : x ∈ c.entries :=
  List.eraseP_subset h

omit [DecidableEq κ] in
theorem mem_link : x ∈ (c.link key value).entries ↔ x ∈ c.entries ∨ x = (key, value) := by
  simp [link]

omit [DecidableEq κ] in
theorem mem_evict (h : x ∈ c.evict.entries) : x ∈ c.entries := by
  unfold evict at h
  split_ifs at h with hne
  · exact h
  · exact List.mem_of_mem_tail h

/-- A lookup reports an entry of the cache. -/
theorem get_mem (h : (c.get key).1 = some value) : (key, value) ∈ c.entries := by
  unfold get at h
  split_ifs at h
  split at h
  · simp at h
  · next v hfind =>
    obtain rfl : v = value := by simpa using h
    exact find_mem hfind

/-- A lookup adds no entry. -/
theorem mem_get (h : x ∈ (c.get key).2.entries) : x ∈ c.entries := by
  unfold get at h
  split_ifs at h
  · exact h
  · split at h
    · exact h
    · next v hfind =>
      rcases mem_link.mp h with h | rfl
      · exact mem_unlink h
      · exact find_mem hfind

theorem mem_remove (h : x ∈ (c.remove key).2.entries) : x ∈ c.entries := by
  unfold remove at h
  split_ifs at h
  · exact h
  · split at h
    · exact h
    · exact mem_unlink h

/-- `Put` adds the entry put, and no other. -/
theorem mem_put (h : x ∈ (c.put key value).entries) : x ∈ c.entries ∨ x = (key, value) := by
  unfold put at h
  split_ifs at h with _ hfull
  · exact Or.inl h
  · split at h
    · exact (mem_link.mp h).imp_left mem_unlink
    · exact (mem_link.mp h).imp_left mem_evict
  · split at h
    · exact (mem_link.mp h).imp_left mem_unlink
    · exact mem_link.mp h

/-- No key has two nodes, and a cache without room has none. -/
structure WF (c : LRUCache κ ν) : Prop where
  nodup : (c.entries.map Prod.fst).Nodup
  empty : c.capacity = 0 → c.entries = []

omit [DecidableEq κ] in
theorem wf_create (capacity : ℕ) : (create capacity : LRUCache κ ν).WF :=
  ⟨List.nodup_nil, fun _ => rfl⟩

theorem mem_of_find_eq_none (h : c.find key = none) : ∀ v, (key, v) ∉ c.entries := by
  intro v hv
  have := List.find?_eq_none.mp (Option.map_eq_none_iff.mp h) _ hv
  simp at this

theorem not_mem_unlink (h : (c.entries.map Prod.fst).Nodup) :
    ∀ v, (key, v) ∉ (c.unlink key).entries := by
  intro v hv
  have hnodup : c.entries.Pairwise fun a b => a.1 ≠ b.1 := List.pairwise_map.mp h
  simp only [unlink] at hv
  generalize c.entries = xs at hv hnodup
  induction xs with
  | nil => simp at hv
  | cons x xs ih =>
    obtain ⟨hx, hxs⟩ := List.pairwise_cons.mp hnodup
    by_cases hkey : x.1 = key
    · rw [List.eraseP_cons_of_pos (by simpa using hkey)] at hv
      exact hx _ hv hkey
    · rw [List.eraseP_cons_of_neg (by simpa using hkey)] at hv
      rcases List.mem_cons.mp hv with rfl | hv
      · exact hkey rfl
      · exact ih hv hxs

/-- An entry with another key stays. -/
theorem mem_unlink_of_ne (hx : x ∈ c.entries) (hkey : x.1 ≠ key) : x ∈ (c.unlink key).entries :=
  (List.mem_eraseP_of_neg (by simpa using hkey)).mpr hx

/-- The entry of a key, in the middle of the ring. -/
theorem find_unlink_of_eq {es es' : List (κ × ν)} (h : (c.entries.map Prod.fst).Nodup)
    (hes : c.entries = es ++ (key, value) :: es') :
    c.find key = some value ∧ (c.unlink key).entries = es ++ es' := by
  rw [hes, List.map_append, List.map_cons] at h
  have hfront : ∀ x ∈ es, x.1 ≠ key := by
    intro x hx
    exact (List.nodup_append.mp h).2.2 x.1 (List.mem_map_of_mem hx) key List.mem_cons_self
  constructor
  · have hnone : es.find? (fun x => x.1 = key) = none := by simpa using hfront
    rw [find, hes, List.find?_append, hnone, Option.none_or, List.find?_cons_of_pos (by simp)]
    rfl
  · rw [unlink, hes, List.eraseP_append_right _ (by simpa using hfront),
      List.eraseP_cons_of_pos (by simp)]

theorem nodup_unlink (h : (c.entries.map Prod.fst).Nodup) :
    ((c.unlink key).entries.map Prod.fst).Nodup :=
  h.sublist ((List.eraseP_sublist).map _)

omit [DecidableEq κ] in
theorem nodup_link (h : (c.entries.map Prod.fst).Nodup) (hkey : ∀ v, (key, v) ∉ c.entries) :
    ((c.link key value).entries.map Prod.fst).Nodup := by
  rw [link, List.map_append, List.nodup_append]
  refine ⟨h, by simp, ?_⟩
  rintro k hk k' hk' rfl
  obtain ⟨⟨k, v⟩, hmem, rfl⟩ := List.mem_map.mp hk
  obtain rfl : k = key := by simpa using hk'
  exact hkey v hmem

omit [DecidableEq κ] in
theorem nodup_evict (h : (c.entries.map Prod.fst).Nodup) :
    (c.evict.entries.map Prod.fst).Nodup := by
  unfold evict
  split_ifs
  · exact h
  · exact h.sublist ((List.tail_sublist _).map _)

theorem WF.get (h : c.WF) : (c.get key).2.WF := by
  unfold LRUCache.get
  split_ifs with hcap
  · exact h
  · split
    · exact h
    · exact ⟨nodup_link (nodup_unlink h.nodup) (not_mem_unlink h.nodup), fun h0 => absurd h0 hcap⟩

theorem WF.remove (h : c.WF) : (c.remove key).2.WF := by
  unfold LRUCache.remove
  split_ifs with hcap
  · exact h
  · split
    · exact h
    · exact ⟨nodup_unlink h.nodup, fun h0 => absurd h0 hcap⟩

theorem WF.put (h : c.WF) : (c.put key value).WF := by
  unfold LRUCache.put
  split_ifs with hcap hfull
  · exact h
  · split
    · exact ⟨nodup_link (nodup_unlink h.nodup) (not_mem_unlink h.nodup), fun h0 => absurd h0 hcap⟩
    · next hfind =>
      refine ⟨nodup_link (nodup_evict h.nodup) ?_, fun h0 => ?_⟩
      · exact fun v hv => mem_of_find_eq_none hfind v (mem_evict hv)
      · simp only [link, evict] at h0
        split_ifs at h0 <;> exact absurd h0 hcap
  · split
    · exact ⟨nodup_link (nodup_unlink h.nodup) (not_mem_unlink h.nodup), fun h0 => absurd h0 hcap⟩
    · next hfind =>
      exact ⟨nodup_link h.nodup (mem_of_find_eq_none hfind), fun h0 => absurd h0 hcap⟩

theorem mem_unlink_iff (h : (c.entries.map Prod.fst).Nodup) :
    x ∈ (c.unlink key).entries ↔ x ∈ c.entries ∧ x.1 ≠ key := by
  constructor
  · intro hx
    refine ⟨mem_unlink hx, ?_⟩
    rintro rfl
    exact not_mem_unlink h x.2 hx
  · rintro ⟨hx, hkey⟩
    exact mem_unlink_of_ne hx hkey

/-- The entry of a key is linked again, or a first one. -/
theorem mem_relink_iff (h : (c.entries.map Prod.fst).Nodup) :
    x ∈ ((c.unlink key).link key value).entries ↔
      x ∈ c.entries ∧ x.1 ≠ key ∨ x = (key, value) := by
  rw [mem_link, mem_unlink_iff h]

theorem ne_of_find_eq_none (h : c.find key = none) : ∀ x ∈ c.entries, x.1 ≠ key := by
  intro x hx hkey
  subst hkey
  exact mem_of_find_eq_none h x.2 hx

/-- What is in the cache after a key was put. -/
theorem WF.mem_put_iff (h : c.WF) (hcap : c.capacity ≠ 0) :
    x ∈ (c.put key value).entries ↔ x ∈ c.entries ∧ x.1 ≠ key ∨ x = (key, value) := by
  cases hfind : c.find key with
  | none =>
    rw [put_of_new hcap hfind, mem_link]
    apply or_congr_left
    constructor
    · intro hx
      exact ⟨hx, ne_of_find_eq_none hfind x hx⟩
    · exact And.left
  | some v =>
    rw [LRUCache.put, if_neg hcap, hfind]
    exact mem_relink_iff h.nodup

/-- What is in the cache after a key was removed. -/
theorem WF.mem_remove_iff (h : c.WF) (hcap : c.capacity ≠ 0) :
    x ∈ (c.remove key).2.entries ↔ x ∈ c.entries ∧ x.1 ≠ key := by
  rw [LRUCache.remove, if_neg hcap]
  cases hfind : c.find key with
  | none =>
    constructor
    · intro hx
      exact ⟨hx, ne_of_find_eq_none hfind x hx⟩
    · exact And.left
  | some v => exact mem_unlink_iff h.nodup

theorem capacity_put : (c.put key value).capacity = c.capacity := by
  unfold put
  rw [evict_eq, ite_self]
  split_ifs
  · rfl
  · cases c.find key with
    | none => rfl
    | some v => rfl

/-- A removed key is gone. -/
theorem WF.not_mem_remove (h : c.WF) : ∀ v, (key, v) ∉ (c.remove key).2.entries := by
  unfold LRUCache.remove
  split_ifs with hcap
  · simp [h.empty hcap]
  · split
    · next hfind => exact mem_of_find_eq_none hfind
    · exact not_mem_unlink h.nodup

end LRUCache

/-- `SegmentCache` over `LRUCache`. -/
structure SegmentCache (ν : Type*) where
  count : ℕ
  segments : ℕ → LRUCache ℕ ν

namespace SegmentCache

variable [Platform] {ν : Type*} {c : SegmentCache ν} {key : ℕ} {value : ν}

def locate (c : SegmentCache ν) (key : ℕ) : ℕ := Platform.hashU64 key % c.count

/-- The entries of all segments. -/
def Mem (c : SegmentCache ν) (x : ℕ × ν) : Prop := ∃ i, x ∈ (c.segments i).entries

/-- `GetOrCompute`, over whatever state the supplier uses. -/
def getOrCompute {σ : Type*} (c : SegmentCache ν) (key : ℕ) (s : σ)
    (supplier : σ → Status × ν × σ) : Status × Option ν × SegmentCache ν × σ :=
  let i := c.locate key
  match (c.segments i).get key with
  | (some value, seg) =>
    (.kOk, some value, { c with segments := Function.update c.segments i seg }, s)
  | (none, seg) =>
    let c := { c with segments := Function.update c.segments i seg }
    match supplier s with
    | (.kOk, value, s) =>
      (.kOk, some value, { c with segments := Function.update c.segments i (seg.put key value) }, s)
    | (status, value, s) => (status, some value, c, s)

omit [Platform] in
theorem mem_update {i : ℕ} {seg : LRUCache ℕ ν} {x : ℕ × ν}
    (h : ({ c with segments := Function.update c.segments i seg } : SegmentCache ν).Mem x) :
    c.Mem x ∨ x ∈ seg.entries := by
  obtain ⟨j, hj⟩ := h
  by_cases hij : j = i
  · subst hij
    simp only [Function.update_self] at hj
    exact Or.inr hj
  · simp only [Function.update_of_ne hij] at hj
    exact Or.inl ⟨j, hj⟩

/-- What `GetOrCompute` reports: a cached value, a supplied one that enters the cache, or the
failure of the supplier. -/
theorem getOrCompute_cases {σ : Type*} (c : SegmentCache ν) (key : ℕ) (s : σ)
    (supplier : σ → Status × ν × σ) :
    (∃ v c', c.getOrCompute key s supplier = (.kOk, some v, c', s) ∧ c.Mem (key, v) ∧
        ∀ x, c'.Mem x → c.Mem x) ∨
      (∃ v s' c', supplier s = (.kOk, v, s') ∧
        c.getOrCompute key s supplier = (.kOk, some v, c', s') ∧
        ∀ x, c'.Mem x → c.Mem x ∨ x = (key, v)) ∨
      ∃ status v s' c', supplier s = (status, v, s') ∧ status ≠ .kOk ∧
        c.getOrCompute key s supplier = (status, some v, c', s') ∧ ∀ x, c'.Mem x → c.Mem x := by
  rcases hseg : (c.segments (c.locate key)).get key with ⟨found, seg⟩
  have hseg' : ∀ x, x ∈ seg.entries → c.Mem x := by
    intro x hx
    rw [show seg = ((c.segments (c.locate key)).get key).2 by rw [hseg]] at hx
    exact ⟨c.locate key, LRUCache.mem_get hx⟩
  -- The cache after the lookup.
  let c₁ : SegmentCache ν :=
    { c with segments := Function.update c.segments (c.locate key) seg }
  have hc₁ : ∀ x, c₁.Mem x → c.Mem x := fun x hx => (mem_update hx).elim id (hseg' x)
  rcases found with _ | v
  · -- A miss: the supplier computes the value, and only a value is stored.
    rcases hsup : supplier s with ⟨status, v, s'⟩
    let c₂ : SegmentCache ν :=
      { c₁ with segments := Function.update c₁.segments (c.locate key) (seg.put key v) }
    have hc₂ : ∀ x, c₂.Mem x → c.Mem x ∨ x = (key, v) := by
      intro x hx
      rcases mem_update hx with hx | hx
      · exact Or.inl (hc₁ x hx)
      · exact (LRUCache.mem_put hx).imp_left (hseg' x)
    by_cases hok : status = .kOk
    · subst hok
      refine Or.inr (Or.inl ⟨v, s', c₂, rfl, ?_, hc₂⟩)
      simp only [getOrCompute, hseg, hsup, c₁, c₂]
    · -- The supplier fails, and the segment stays as the lookup left it.
      refine Or.inr (Or.inr ⟨status, v, s', c₁, rfl, hok, ?_, hc₁⟩)
      simp only [getOrCompute, hseg, hsup, c₁]
  · -- A hit, which only moves the key to the end of its segment.
    refine Or.inl ⟨v, c₁, ?_, ⟨c.locate key, LRUCache.get_mem (by rw [hseg])⟩, hc₁⟩
    simp only [getOrCompute, hseg, c₁]

/-- `GetOrCompute` with a supplier that succeeds: the value is cached or supplied, and
only a supplied value enters the cache. -/
theorem getOrCompute_of_kOk {σ : Type*} {s s' : σ} {supplier : σ → Status × ν × σ}
    (c : SegmentCache ν) (key : ℕ) (hsup : supplier s = (.kOk, value, s')) :
    ∃ v c' t, c.getOrCompute key s supplier = (.kOk, some v, c', t) ∧
      (c.Mem (key, v) ∧ t = s ∨ v = value ∧ t = s') ∧
      ∀ x, c'.Mem x → c.Mem x ∨ x = (key, value) := by
  rcases c.getOrCompute_cases key s supplier with ⟨v, c', hget, hv, hmem⟩ |
    ⟨v, t, c', hsup', hget, hmem⟩ | ⟨status, v, t, c', hsup', hne, -⟩
  · exact ⟨v, c', s, hget, Or.inl ⟨hv, rfl⟩, fun x hx => Or.inl (hmem x hx)⟩
  · rw [hsup, Prod.mk.injEq, Prod.mk.injEq] at hsup'
    obtain ⟨-, rfl, rfl⟩ := hsup'
    exact ⟨value, c', s', hget, Or.inr ⟨rfl, rfl⟩, hmem⟩
  · rw [hsup, Prod.mk.injEq] at hsup'
    exact absurd hsup'.1.symm hne

end SegmentCache
end PedroDB
