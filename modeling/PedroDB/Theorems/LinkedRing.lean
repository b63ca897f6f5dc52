import PedroDB.Cache.LinkedCache
import PedroDB.Lib.Transition

/-!
# The ring of an LRU cache

Whatever calls are made on an `LRUCache`, its entries stay linked in a ring through `lru_`, in the
order in which they were last used, and `keys_` leads to them and to nothing else.

## Main definitions

* `LinkedCache.Call`, `Traced`, `step` — calls on the cache, with their answers
* `LinkedCache.OlderUse` — one key was last used before another one
* `LinkedCache.latest` — the value that was put last, unless it was removed
* `LinkedCache.Consistent` — what holds of the cache at any time

## Main results

* `LinkedCache.inv_step` — what a call does to the order and to the values
* `LinkedCache.exists_consistent` — no call meets memory that is not there, and the cache stays
  consistent
-/

namespace PedroDB.LinkedCache

open Transition

/-- A call on the cache; the one of `Put` with the address that `New` returns, if it is called. -/
inductive Call (κ ν : Type)
  | get (key : κ)
  | put (key : κ) (value : ν) (addr : ℕ)
  | remove (key : κ)
  | evict

/-- The calls so far, each with the value it reported. -/
abbrev History (κ ν : Type) := List (Call κ ν × Option ν)

/-- A cache and the calls that were made on it. -/
structure Traced (κ ν : Type) where
  cache : LinkedCache κ ν
  history : History κ ν

variable {κ ν : Type}

/-- The call puts the key, or gets it successfully. -/
def Uses (key : κ) : Call κ ν × Option ν → Prop
  | (.put k _ _, _) => k = key
  | (.get k, some _) => k = key
  | _ => False

/-- After the last use of `key` there was one of `key'`. -/
def OlderUse (history : History κ ν) (key key' : κ) : Prop :=
  ∃ pre post, history = pre ++ post ∧ (∀ x ∈ post, ¬ Uses key x) ∧ ∃ x ∈ post, Uses key' x

variable [DecidableEq κ]

/-- What becomes of the value of a key. -/
def note (key : κ) (v : Option ν) (x : Call κ ν × Option ν) : Option ν :=
  match x.1 with
  | .put k value _ => if k = key then some value else v
  | .remove k => if k = key then none else v
  | _ => v

/-- The value that was put last, unless the key was removed later. -/
def latest (key : κ) (history : History κ ν) : Option ν := history.foldl (note key) none

section

variable [Inhabited κ] [Inhabited ν]

/-- What a call reports, and what it leaves. -/
def Call.apply (c : LinkedCache κ ν) : Call κ ν → Option (Option ν × LinkedCache κ ν)
  | .get key => c.get key
  | .put key value addr => (c.put key value addr).map fun c => (none, c)
  | .remove key => c.remove key
  | .evict => c.evict.map fun c => (none, c)

def step (s : Traced κ ν) (a : Call κ ν) : Option (Traced κ ν) :=
  (a.apply s.cache).map fun (answer, cache) => { cache, history := s.history ++ [(a, answer)] }

/-- A new cache. -/
def start (capacity : ℕ) : Traced κ ν := { cache := create capacity, history := [] }

end

omit [DecidableEq κ] in
/-- The allocator returns an address that is not in use. -/
def Fresh (s : Traced κ ν) : Call κ ν → Prop
  | .put _ _ addr => s.cache.memory (.node addr) = none
  | _ => True

omit [DecidableEq κ] in
instance (s : Traced κ ν) : DecidablePred (Fresh s) := fun a =>
  match a with
  | .put _ _ addr => decidable_of_iff ((s.cache.memory (.node addr)).isNone = true)
      Option.isNone_iff_eq_none
  | .get _ => .isTrue trivial
  | .remove _ => .isTrue trivial
  | .evict => .isTrue trivial

/-- The cache after these calls: `keys_` and the ring are in bijection, the links are mutually
inverse and lead to nothing that was freed, the ring is in the order of the last use, and `Get`
reports what was put last. -/
structure Consistent (n : ℕ) (s : Traced κ ν) (nodes : List EntryPtr) : Prop where
  ring : Ring.IsRing s.cache.links .lru nodes
  mapped : ∀ key p, s.cache.keys.lookup key = some p ↔
    p ∈ nodes ∧ ∃ e, s.cache.memory p = some e ∧ e.key = key
  inverse : ∀ p ∈ EntryPtr.lru :: nodes, ∀ q ∈ EntryPtr.lru :: nodes,
    s.cache.next p = some q ↔ s.cache.prev q = some p
  allocated : ∀ p, (s.cache.memory p).isSome ↔ p ∈ EntryPtr.lru :: nodes
  reachable : ∀ p, Relation.ReflTransGen
    (fun x y => s.cache.next x = some y ∨ s.cache.prev x = some y) .lru p →
      (s.cache.memory p).isSome
  ordered : nodes.Pairwise fun p q => ∀ e e', s.cache.memory p = some e →
    s.cache.memory q = some e' → OlderUse s.history e.key e'.key
  value : ∀ key, ∃ c, s.cache.get key = some (if n = 0 then none else latest key s.history, c)

variable {history : History κ ν} {x : Call κ ν × Option ν} {key key' : κ} {value : ν}
  {l : LRUCache κ ν} {n : ℕ}

/-! ### One more call -/

theorem latest_concat : latest key (history ++ [x]) = note key (latest key history) x := by
  rw [latest, List.foldl_append]
  rfl

section Order

omit [DecidableEq κ]

/-- A call that does not use the older key keeps the order. -/
theorem OlderUse.concat (h : OlderUse history key key') (hnot : ¬ Uses key x) :
    OlderUse (history ++ [x]) key key' := by
  obtain ⟨pre, post, rfl, hunused, y, hy, hused⟩ := h
  refine ⟨pre, post ++ [x], by simp, ?_, y, List.mem_append_left _ hy, hused⟩
  intro z hz
  rcases List.mem_append.mp hz with hz | hz
  · exact hunused z hz
  · exact List.mem_singleton.mp hz ▸ hnot

/-- What a call uses is used later than everything else. -/
theorem olderUse_of_uses (hnot : ¬ Uses key x) (huses : Uses key' x) :
    OlderUse (history ++ [x]) key key' :=
  ⟨history, [x], rfl, by simpa using hnot, x, List.mem_singleton_self x, huses⟩

/-- The entries are in the order of the last use of their keys. -/
def Ordered (history : History κ ν) (entries : List (κ × ν)) : Prop :=
  entries.Pairwise fun x y => OlderUse history x.1 y.1

variable {entries entries' : List (κ × ν)}

/-- A call that uses nothing and at most takes an entry out. -/
theorem Ordered.sublist (h : Ordered history entries) (hsub : entries'.Sublist entries)
    (hunused : ∀ k, ¬ Uses k x) : Ordered (history ++ [x]) entries' := by
  apply (List.Pairwise.sublist hsub h).imp
  intro a b hab
  exact hab.concat (hunused a.1)

/-- A call that moves the entry of a key to the end, or puts one there. -/
theorem Ordered.link (h : Ordered history entries) (hsub : entries'.Sublist entries)
    (hne : ∀ a ∈ entries', a.1 ≠ key) (huses : ∀ k, Uses k x ↔ k = key) :
    Ordered (history ++ [x]) (entries' ++ [(key, value)]) := by
  apply List.pairwise_append.mpr
  refine ⟨?_, List.pairwise_singleton _ _, ?_⟩
  · apply (List.Pairwise.sublist hsub h).imp_of_mem
    intro a b ha _ hab
    exact hab.concat fun hu => hne a ha ((huses a.1).mp hu)
  · intro a ha b hb
    rw [List.mem_singleton.mp hb]
    exact olderUse_of_uses (fun hu => hne a ha ((huses a.1).mp hu)) ((huses key).mpr rfl)

end Order

/-- The cache has the capacity `n`, its entries are in order, and they are those that were put
last. -/
structure Agrees (n : ℕ) (history : History κ ν) (l : LRUCache κ ν) : Prop where
  capacity : l.capacity = n
  ordered : Ordered history l.entries
  values : ∀ k v, (k, v) ∈ l.entries ↔ n ≠ 0 ∧ latest k history = some v

/-- What a call does to the list of entries. -/
def Call.applyTo (l : LRUCache κ ν) : Call κ ν → Option ν × LRUCache κ ν
  | .get key => l.get key
  | .put key value _ => (none, l.put key value)
  | .remove key => l.remove key
  | .evict => (none, l.evict)

namespace Agrees

/-- A call that changes nothing. -/
theorem same (h : Agrees n history l) (hunused : ∀ k, ¬ Uses k x) (hnote : ∀ k v, note k v x = v) :
    Agrees n (history ++ [x]) l where
  capacity := h.capacity
  ordered := Ordered.sublist h.ordered (List.Sublist.refl _) hunused
  values := by
    intro k v
    rw [latest_concat, hnote, h.values]

theorem find_eq (h : Agrees n history l) (hn : n ≠ 0) (key : κ) :
    l.find key = latest key history := by
  cases hfind : l.find key with
  | none =>
    cases hlatest : latest key history with
    | none => rfl
    | some v =>
      exact absurd ((h.values key v).mpr ⟨hn, hlatest⟩) (LRUCache.mem_of_find_eq_none hfind v)
  | some v => exact ((h.values key v).mp (LRUCache.find_mem hfind)).2.symm

theorem value_unique {v v' : ν} (h : Agrees n history l) (hv : (key, v) ∈ l.entries)
    (hv' : (key, v') ∈ l.entries) : v = v' :=
  Option.some_inj.mp (((h.values key v).mp hv).2.symm.trans ((h.values key v').mp hv').2)

theorem get_eq (h : Agrees n history l) (key : κ) :
    (l.get key).1 = if n = 0 then none else latest key history := by
  rw [LRUCache.get, h.capacity]
  split_ifs with hn
  · rfl
  · rw [← h.find_eq hn]
    cases l.find key with
    | none => rfl
    | some v => rfl

theorem get (h : Agrees n history l) (hwf : l.WF) (hn : n ≠ 0) (key : κ) :
    Agrees n (history ++ [(.get key, (l.get key).1)]) (l.get key).2 := by
  have hcap : l.capacity ≠ 0 := h.capacity ▸ hn
  cases hfind : l.find key with
  | none =>
    have hmiss : l.get key = (none, l) := by simp only [LRUCache.get, if_neg hcap, hfind]
    rw [hmiss]
    exact h.same (fun _ => id) fun _ _ => rfl
  | some value =>
    have hhit : l.get key = (some value, (l.unlink key).link key value) := by
      simp only [LRUCache.get, if_neg hcap, hfind]
    rw [hhit]
    refine ⟨h.capacity, ?_, ?_⟩
    · apply Ordered.link h.ordered List.eraseP_sublist
      · intro x hx
        exact ((LRUCache.mem_unlink_iff hwf.nodup).mp hx).2
      · intro k
        exact eq_comm
    · intro k v
      rw [latest_concat, LRUCache.mem_relink_iff hwf.nodup]
      refine Iff.trans ?_ (h.values k v)
      constructor
      · rintro (⟨hmem, -⟩ | heq)
        · exact hmem
        · rw [heq]
          exact LRUCache.find_mem hfind
      · intro hmem
        by_cases hk : k = key
        · right
          rw [hk] at hmem ⊢
          rw [h.value_unique hmem (LRUCache.find_mem hfind)]
        · exact Or.inl ⟨hmem, hk⟩

theorem put (h : Agrees n history l) (hwf : l.WF) (hn : n ≠ 0) (key : κ) (value : ν) (addr : ℕ) :
    Agrees n (history ++ [(.put key value addr, none)]) (l.put key value) := by
  have hcap : l.capacity ≠ 0 := h.capacity ▸ hn
  have huses : ∀ k, Uses k ((.put key value addr, none) : Call κ ν × Option ν) ↔ k = key :=
    fun k => eq_comm
  have hordered : Ordered (history ++ [(.put key value addr, none)]) (l.put key value).entries := by
    cases hfind : l.find key with
    | none =>
      rw [LRUCache.put_of_new hcap hfind]
      exact Ordered.link h.ordered (List.Sublist.refl _) (LRUCache.ne_of_find_eq_none hfind) huses
    | some old =>
      have hput : l.put key value = (l.unlink key).link key value := by
        simp only [LRUCache.put, if_neg hcap, hfind]
      rw [hput]
      apply Ordered.link h.ordered List.eraseP_sublist _ huses
      intro x hx
      exact ((LRUCache.mem_unlink_iff hwf.nodup).mp hx).2
  refine ⟨LRUCache.capacity_put.trans h.capacity, hordered, ?_⟩
  intro k v
  rw [latest_concat, hwf.mem_put_iff hcap, h.values]
  change _ ↔ n ≠ 0 ∧ (if key = k then some value else latest k history) = some v
  by_cases hk : k = key
  · simp [hk, hn, eq_comm]
  · simp [hk, Ne.symm hk]

theorem remove (h : Agrees n history l) (hwf : l.WF) (hn : n ≠ 0) (key : κ) :
    Agrees n (history ++ [(.remove key, (l.remove key).1)]) (l.remove key).2 := by
  have hcap : l.capacity ≠ 0 := h.capacity ▸ hn
  have hremove : (l.remove key).2.capacity = l.capacity ∧
      (l.remove key).2.entries.Sublist l.entries := by
    rw [LRUCache.remove, if_neg hcap]
    cases l.find key with
    | none => exact ⟨rfl, List.Sublist.refl _⟩
    | some v => exact ⟨rfl, List.eraseP_sublist⟩
  refine ⟨hremove.1.trans h.capacity, Ordered.sublist h.ordered hremove.2 fun _ => id, ?_⟩
  intro k v
  rw [latest_concat, hwf.mem_remove_iff hcap, h.values]
  change _ ↔ n ≠ 0 ∧ (if key = k then none else latest k history) = some v
  by_cases hk : k = key
  · simp [hk]
  · simp [hk, Ne.symm hk]

/-- A cache without capacity stays empty. -/
theorem applyTo_of_zero (h : Agrees n history l) (hn : n = 0) (a : Call κ ν) :
    (a.applyTo l).2 = l := by
  have hcap : l.capacity = 0 := h.capacity.trans hn
  cases a with
  | get key => rw [Call.applyTo, LRUCache.get, if_pos hcap]
  | put key value addr => rw [Call.applyTo, LRUCache.put, if_pos hcap]
  | remove key => rw [Call.applyTo, LRUCache.remove, if_pos hcap]
  | evict => exact LRUCache.evict_eq l

/-- Every call keeps the order and the values. -/
theorem applyTo (h : Agrees n history l) (hwf : l.WF) (a : Call κ ν) :
    Agrees n (history ++ [(a, (a.applyTo l).1)]) (a.applyTo l).2 := by
  by_cases hn : n = 0
  · rw [h.applyTo_of_zero hn]
    have hempty : l.entries = [] := hwf.empty (h.capacity.trans hn)
    refine ⟨h.capacity, ?_, ?_⟩
    · rw [hempty]
      exact List.Pairwise.nil
    · intro k v
      rw [hempty]
      simp [hn]
  · cases a with
    | get key => exact h.get hwf hn key
    | put key value addr => exact h.put hwf hn key value addr
    | remove key => exact h.remove hwf hn key
    | evict =>
      rw [Call.applyTo, LRUCache.evict_eq]
      exact h.same (fun _ => id) fun _ _ => rfl

end Agrees

/-! ### Runs -/

variable {c : LinkedCache κ ν} {nodes : List EntryPtr} {s : Traced κ ν} {as : List (Call κ ν)}

omit [DecidableEq κ] in
/-- The order of the entries is the order of the ring. -/
theorem pairwise_nodes (hcontent : nodes.map c.content = l.entries.map some)
    (h : Ordered history l.entries) : nodes.Pairwise fun p q => ∀ e e', c.memory p = some e →
      c.memory q = some e' → OlderUse history e.key e'.key := by
  have hsome : (l.entries.map some).Pairwise fun o o' => ∀ x x' : κ × ν, o = some x →
      o' = some x' → OlderUse history x.1 x'.1 := by
    rw [List.pairwise_map]
    apply h.imp
    rintro a b hab x x' hx hx'
    obtain rfl := Option.some_inj.mp hx
    obtain rfl := Option.some_inj.mp hx'
    exact hab
  rw [← hcontent, List.pairwise_map] at hsome
  apply hsome.imp
  intro p q hpq e e' he he'
  apply hpq (e.key, e.value) (e'.key, e'.value)
  · rw [content, he]
    rfl
  · rw [content, he']
    rfl

/-- A cache that represents a list with the right entries is consistent. -/
theorem Represents.consistent (h : Represents s.cache nodes l) (hl : Agrees n s.history l) :
    Consistent n s nodes where
  ring := h.ring
  mapped := by
    intro key p
    rw [h.keys]
    apply and_congr_right
    intro _
    cases hp : s.cache.memory p with
    | none => simp [content, hp]
    | some e => simp [content, hp]
  inverse := fun p hp q hq => h.ring.next_eq_iff hp hq
  allocated := by
    intro p
    rw [← isSome_content]
    exact h.allocated p
  reachable := by
    intro p hpath
    rw [← isSome_content]
    exact (h.allocated p).mpr (h.ring.mem_of_reachable hpath)
  ordered := pairwise_nodes h.entries hl.ordered
  value := by
    intro key
    obtain ⟨c', nodes', hget, -⟩ := h.get key
    rw [hl.get_eq key] at hget
    exact ⟨c', hget⟩

variable [Inhabited κ] [Inhabited ν]

/-- A call does what it does to the list of entries. -/
theorem Represents.apply (h : Represents s.cache nodes l) {a : Call κ ν} (hfresh : Fresh s a) :
    ∃ c' nodes', a.apply s.cache = some ((a.applyTo l).1, c') ∧
      Represents c' nodes' (a.applyTo l).2 := by
  cases a with
  | get key => exact h.get key
  | put key value addr =>
    obtain ⟨c', nodes', hput, h'⟩ := h.put key value hfresh
    exact ⟨c', nodes', by rw [Call.apply, hput]; rfl, h'⟩
  | remove key => exact h.remove key
  | evict =>
    refine ⟨s.cache, nodes, by rw [Call.apply, h.evict]; rfl, ?_⟩
    rw [Call.applyTo, LRUCache.evict_eq]
    exact h

/-- What holds before and after every call. -/
def Inv (n : ℕ) (s : Traced κ ν) : Prop :=
  ∃ nodes l, Represents s.cache nodes l ∧ Agrees n s.history l

omit [Inhabited κ] [Inhabited ν] in
theorem agrees_nil (n : ℕ) : Agrees n ([] : History κ ν) (LRUCache.create n) where
  capacity := rfl
  ordered := List.Pairwise.nil
  values := by simp [LRUCache.create, latest]

theorem inv_start (n : ℕ) : Inv n (start n : Traced κ ν) :=
  ⟨[], LRUCache.create n, Represents.create n, agrees_nil n⟩

/-- No call meets memory that is not there, and the invariant stays. -/
theorem inv_step {a : Call κ ν} (h : Inv n s) (hfresh : Fresh s a) :
    ∃ t, step s a = some t ∧ Inv n t := by
  obtain ⟨nodes, l, hrep, hl⟩ := h
  obtain ⟨c', nodes', happly, hrep'⟩ := hrep.apply hfresh
  refine ⟨{ cache := c', history := s.history ++ [(a, (a.applyTo l).1)] }, ?_, nodes',
    (a.applyTo l).2, hrep', hl.applyTo hrep.wf a⟩
  rw [step, happly]
  rfl

theorem map_history {t : Traced κ ν} (hrun : Run step s as t) :
    t.history.map Prod.fst = s.history.map Prod.fst ++ as := by
  induction as generalizing s with
  | nil =>
    obtain rfl := run_nil.mp hrun
    rw [List.append_nil]
  | cons a as ih =>
    obtain ⟨u, hu, hrest⟩ := run_cons.mp hrun
    obtain ⟨⟨answer, c⟩, -, rfl⟩ := Option.map_eq_some_iff.mp hu
    rw [ih hrest]
    simp

/-- Whatever calls are made on a new cache, none of them follows a pointer to memory that is not
there, and afterwards the cache is consistent. -/
theorem exists_consistent (n : ℕ) (as : List (Call κ ν)) (hfresh : Meets step Fresh (start n) as) :
    ∃ s nodes, Run step (start n) as s ∧ s.history.map Prod.fst = as ∧ Consistent n s nodes := by
  obtain ⟨s, hrun, nodes, l, hrep, hl⟩ := hfresh.exists_run (inv_start n) fun t a => inv_step
  exact ⟨s, nodes, hrun, map_history hrun, hrep.consistent hl⟩

/-- A third key in a cache for two, and an address that is used again. -/
def sixCalls : List (Call ℕ ℕ) :=
  [.put 1 10 1, .put 2 20 2, .get 1, .put 3 30 3, .remove 2, .put 4 40 2]

theorem exists_consistent_six : ∃ s nodes, Run step (start 2) sixCalls s ∧ Consistent 2 s nodes ∧
    s.cache.next .lru = some (.node 1) ∧ s.cache.prev .lru = some (.node 2) := by
  obtain ⟨s, nodes, hrun, -, h⟩ := exists_consistent 2 sixCalls (meets_of_check (by decide))
  have hlru : (sixCalls.foldlM step (start 2)).map (fun s => (s.cache.next .lru, s.cache.prev .lru)) =
      some (some (.node 1), some (.node 2)) := by
    decide +kernel
  have hends : (s.cache.next .lru, s.cache.prev .lru) =
      (some (EntryPtr.node 1), some (EntryPtr.node 2)) := by
    rw [hrun] at hlru
    exact Option.some_inj.mp hlru
  exact ⟨s, nodes, hrun, h, congrArg Prod.fst hends, congrArg Prod.snd hends⟩

end PedroDB.LinkedCache
