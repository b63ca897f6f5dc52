import PedroDB.Cache.LRU
import PedroDB.Lib.Transition

/-!
# Eviction

`Put` makes room for a new key with `Evict`, which returns at once unless the cache is
empty. So no entry ever leaves to make room, and the cache grows without bound.

## Main definitions

* `LRUCache.Call`, `LRUCache.step` — one call on the cache
* `LRUCache.Older` — one key was last used before another one
* `LRUCache.Lru` — the cache is bounded, and evicts what was not used for longest
* `LRUCache.Room` — the call needs no room, or there is room

## Main results

* `LRUCache.pairwise_older` — the ring is ordered by last use
* `LRUCache.lru_iff_room` — the sequences of calls that keep the bound
-/

namespace PedroDB.LRUCache

open Transition

variable {κ ν : Type*}

/-- A call on the cache. -/
inductive Call (κ ν : Type*)
  | get (key : κ)
  | put (key : κ) (value : ν)
  | remove (key : κ)
  deriving DecidableEq

variable [DecidableEq κ] {c t : LRUCache κ ν} {a : Call κ ν} {as bs : List (Call κ ν)}
  {key key' : κ} {value : ν} {n : ℕ}

def Call.apply (c : LRUCache κ ν) : Call κ ν → LRUCache κ ν
  | .get key => (c.get key).2
  | .put key value => c.put key value
  | .remove key => (c.remove key).2

def step (c : LRUCache κ ν) (a : Call κ ν) : Option (LRUCache κ ν) := some (a.apply c)

/-- The call puts this key, or gets it successfully. -/
def Call.Uses (c : LRUCache κ ν) (key : κ) : Call κ ν → Prop
  | .get k => k = key ∧ (c.get k).1.isSome
  | .put k _ => k = key
  | .remove _ => False

/-- One of the calls uses this key. -/
def Used (key : κ) : LRUCache κ ν → List (Call κ ν) → Prop
  | _, [] => False
  | c, a :: as => a.Uses c key ∨ Used key (a.apply c) as

/-- After the last use of `key` there was one of `key'`. -/
def Older (c : LRUCache κ ν) (as : List (Call κ ν)) (key key' : κ) : Prop :=
  ∃ pre post t, as = pre ++ post ∧ Run step c pre t ∧ ¬ Used key t post ∧ Used key' t post

/-- From the empty cache on there are never more than `n` entries, and an entry that leaves
when a new key is put was not used for longest. -/
structure Lru (n : ℕ) (as : List (Call κ ν)) : Prop where
  bounded : ∀ bs t, bs <+: as → Run step (create n) bs t → t.entries.length ≤ n
  oldest : ∀ bs t key value, bs ++ [.put key value] <+: as → Run step (create n) bs t →
    t.find key = none → ∀ x ∈ t.entries, x ∉ (t.put key value).entries →
      ∀ y ∈ t.entries, y ≠ x → Older (create n) bs x.1 y.1

/-- The call is not a `Put` of a new key into a full cache. -/
def Room (c : LRUCache κ ν) : Call κ ν → Prop
  | .put key _ => c.find key = none → c.entries.length < c.capacity
  | _ => True

instance (c : LRUCache κ ν) : DecidablePred (Room c) := fun a =>
  match a with
  | .put key _ => inferInstanceAs (Decidable (c.find key = none → c.entries.length < c.capacity))
  | .get _ => .isTrue trivial
  | .remove _ => .isTrue trivial

/-! ### What a call does -/

theorem length_unlink (h : c.find key = some value) :
    (c.unlink key).entries.length + 1 = c.entries.length := by
  have hpos : 0 < c.entries.length := List.length_pos_of_mem (find_mem h)
  have herase := List.length_eraseP_of_mem (p := fun x => x.1 = key) (find_mem h) (by simp)
  rw [unlink, herase]
  omega

@[simp] theorem capacity_apply : (a.apply c).capacity = c.capacity := by
  cases a with
  | get key =>
    simp only [Call.apply, get]
    split_ifs
    · rfl
    · split <;> rfl
  | put key value =>
    simp only [Call.apply, put, evict_eq, ite_self]
    split_ifs
    · rfl
    · split <;> rfl
  | remove key =>
    simp only [Call.apply, remove]
    split_ifs
    · rfl
    · split <;> rfl

/-- Only the `Put` of a new key makes the cache larger. -/
theorem length_apply_le_iff (hcap : c.capacity ≠ 0) (hle : c.entries.length ≤ c.capacity) :
    (a.apply c).entries.length ≤ c.capacity ↔ c.Room a := by
  cases a with
  | get key =>
    simp only [Room, iff_true, Call.apply, get, if_neg hcap]
    split
    · -- A key that is not there.
      exact hle
    · -- A hit moves the key to the end.
      next v hfind =>
      have := length_unlink hfind
      simp only [link, List.length_append, List.length_singleton]
      omega
  | put key value =>
    simp only [Room, Call.apply]
    rcases hfind : c.find key with _ | v
    · -- A new key needs room.
      rw [put_of_new hcap hfind]
      simp only [link, List.length_append, List.length_singleton, true_imp_iff, Nat.succ_le_iff]
    · -- A key that is there is replaced.
      have := length_unlink hfind
      simp only [put, if_neg hcap, hfind, link, List.length_append, List.length_singleton,
        reduceCtorEq, false_imp_iff, iff_true]
      omega
  | remove key =>
    simp only [Room, iff_true, Call.apply, remove, if_neg hcap]
    split
    · exact hle
    · next v hfind =>
      have := length_unlink hfind
      dsimp only
      omega

theorem WF.apply (h : c.WF) (a : Call κ ν) : (a.apply c).WF := by
  cases a with
  | get key => exact h.get
  | put key value => exact h.put
  | remove key => exact h.remove

/-! ### The order of the ring -/

theorem used_concat (hrun : Run step c as t) :
    Used key c (as ++ [a]) ↔ Used key c as ∨ a.Uses t key := by
  induction as generalizing c with
  | nil =>
    obtain rfl := run_nil.mp hrun
    simp [Used]
  | cons b as ih =>
    obtain ⟨u, hu, hrest⟩ := run_cons.mp hrun
    obtain rfl : b.apply c = u := Option.some_inj.mp hu
    rw [List.cons_append, Used, Used, ih hrest, or_assoc]

/-- A call that does not use the older key keeps the order. -/
theorem Older.concat (h : Older c as key key') (hrun : Run step c as t) (hnot : ¬ a.Uses t key) :
    Older c (as ++ [a]) key key' := by
  obtain ⟨pre, post, u, rfl, hpre, hunused, hused⟩ := h
  obtain ⟨u', hu', hpost⟩ := run_append.mp hrun
  obtain rfl := hu'.unique hpre
  refine ⟨pre, post ++ [a], u', by simp, hpre, ?_, ?_⟩
  · rw [used_concat hpost]
    exact not_or.mpr ⟨hunused, hnot⟩
  · exact (used_concat hpost).mpr (Or.inl hused)

/-- What a call uses is used later than everything else. -/
theorem older_of_uses (hrun : Run step c as t) (hnot : ¬ a.Uses t key) (huses : a.Uses t key') :
    Older c (as ++ [a]) key key' :=
  ⟨as, [a], t, rfl, hrun, by simpa [Used] using hnot, by simpa [Used] using huses⟩

/-- A call that moves `key` to the end of the ring. -/
theorem pairwise_older_link {xs : List (κ × ν)} (hrun : Run step c as t)
    (h : t.entries.Pairwise fun x y => Older c as x.1 y.1) (hsub : xs.Sublist t.entries)
    (hne : ∀ x ∈ xs, x.1 ≠ key) (huses : ∀ k, a.Uses t k ↔ k = key) :
    (xs ++ [(key, value)]).Pairwise fun x y => Older c (as ++ [a]) x.1 y.1 := by
  have hnot : ∀ x ∈ xs, ¬ a.Uses t x.1 := fun x hx hu => hne x hx ((huses x.1).mp hu)
  refine List.pairwise_append.mpr ⟨?_, List.pairwise_singleton _ _, ?_⟩
  · refine (h.sublist hsub).imp_of_mem ?_
    intro x y hx _ hxy
    exact hxy.concat hrun (hnot x hx)
  · intro x hx y hy
    rw [List.mem_singleton.mp hy]
    exact older_of_uses hrun (hnot x hx) ((huses key).mpr rfl)

/-- A call that uses nothing and at most takes an entry out of the ring. -/
theorem pairwise_older_sublist {xs : List (κ × ν)} (hrun : Run step c as t)
    (h : t.entries.Pairwise fun x y => Older c as x.1 y.1) (hsub : xs.Sublist t.entries)
    (hunused : ∀ k, ¬ a.Uses t k) :
    xs.Pairwise fun x y => Older c (as ++ [a]) x.1 y.1 :=
  (h.sublist hsub).imp fun hxy => hxy.concat hrun (hunused _)

theorem ne_of_mem_unlink (h : (c.entries.map Prod.fst).Nodup) :
    ∀ x ∈ (c.unlink key).entries, x.1 ≠ key := by
  intro x hx hkey
  subst hkey
  exact not_mem_unlink h x.2 hx

/-- One call keeps the ring in the order of last use. -/
theorem pairwise_older_apply (hcap : t.capacity ≠ 0) (hwf : t.WF) (hrun : Run step c as t)
    (h : t.entries.Pairwise fun x y => Older c as x.1 y.1) (a : Call κ ν) :
    (a.apply t).entries.Pairwise fun x y => Older c (as ++ [a]) x.1 y.1 := by
  cases a with
  | get key =>
    rcases hfind : t.find key with _ | v
    · -- A miss uses no key.
      have hmiss : t.get key = (none, t) := by simp only [get, if_neg hcap, hfind]
      rw [Call.apply, hmiss]
      exact pairwise_older_sublist hrun h (List.Sublist.refl _) fun k => by simp [Call.Uses, hmiss]
    · -- A hit makes its key the newest one.
      have hhit : t.get key = (some v, (t.unlink key).link key v) := by
        simp only [get, if_neg hcap, hfind]
      rw [Call.apply, hhit]
      exact pairwise_older_link hrun h List.eraseP_sublist (ne_of_mem_unlink hwf.nodup)
        fun k => by simp [Call.Uses, hhit, eq_comm]
  | put key value =>
    have huses : ∀ k, (Call.put key value).Uses t k ↔ k = key := fun k => eq_comm
    rw [Call.apply]
    rcases hfind : t.find key with _ | v
    · -- A new key goes behind the others.
      rw [put_of_new hcap hfind]
      exact pairwise_older_link hrun h (List.Sublist.refl _) (ne_of_find_eq_none hfind) huses
    · have hput : t.put key value = (t.unlink key).link key value := by
        simp only [put, if_neg hcap, hfind]
      rw [hput]
      exact pairwise_older_link hrun h List.eraseP_sublist (ne_of_mem_unlink hwf.nodup) huses
  | remove key =>
    refine pairwise_older_sublist hrun h ?_ fun k => id
    rw [Call.apply, remove, if_neg hcap]
    rcases t.find key with _ | v
    · exact List.Sublist.refl _
    · exact List.eraseP_sublist

/-- In every state that calls lead to, the ring is in the order of last use. -/
theorem pairwise_older (hn : n ≠ 0) (hrun : Run step (create n) as t) :
    t.entries.Pairwise fun x y => Older (create n) as x.1 y.1 := by
  have key : Run step (create n) as t ∧ t.capacity = n ∧ t.WF ∧
      t.entries.Pairwise fun x y => Older (create n) as x.1 y.1 := by
    refine hrun.history (g := fun _ _ => True) (P := fun as t => Run step (create n) as t ∧
      t.capacity = n ∧ t.WF ∧ t.entries.Pairwise fun x y => Older (create n) as x.1 y.1)
      (fun _ _ _ _ _ _ => trivial) ⟨run_nil.mpr rfl, rfl, wf_create n, List.Pairwise.nil⟩ ?_
    rintro as t a u ⟨hrun, hcap, hwf, h⟩ - hu
    refine ⟨run_concat.mpr ⟨t, hrun, hu⟩, ?_⟩
    obtain rfl : a.apply t = u := Option.some_inj.mp hu
    exact ⟨by rw [capacity_apply, hcap], hwf.apply a,
      pairwise_older_apply (hcap ▸ hn) hwf hrun h a⟩
  exact key.2.2.2

/-! ### The bound -/

/-- No entry leaves when a key is put. -/
theorem mem_put_of_mem {x : κ × ν} (hcap : c.capacity ≠ 0) (hnew : c.find key = none)
    (hx : x ∈ c.entries) : x ∈ (c.put key value).entries := by
  rw [put_of_new hcap hnew]
  exact mem_link.mpr (Or.inl hx)

theorem exists_run (c : LRUCache κ ν) (as : List (Call κ ν)) : ∃ t, Run step c as t := by
  induction as generalizing c with
  | nil => exact ⟨c, run_nil.mpr rfl⟩
  | cons a as ih =>
    obtain ⟨t, ht⟩ := ih (a.apply c)
    exact ⟨t, run_cons.mpr ⟨a.apply c, rfl, ht⟩⟩

theorem capacity_of_run (hrun : Run step c as t) : t.capacity = c.capacity :=
  hrun.invariant (g := fun _ _ => True) (P := fun t => t.capacity = c.capacity)
    (fun _ _ _ _ _ _ => trivial) rfl fun t a u ht _ hu => by
      obtain rfl : a.apply t = u := Option.some_inj.mp hu
      rw [capacity_apply, ht]

/-- A sequence of calls keeps the cache bounded, and evicts in the order of last use, exactly
if no call puts a new key into a full cache. -/
theorem lru_iff_room (hn : 1 ≤ n) (as : List (Call κ ν)) :
    Lru n as ↔ Meets step Room (create n) as := by
  have hn' : n ≠ 0 := Nat.one_le_iff_ne_zero.mp hn
  obtain ⟨t, hrun⟩ := exists_run (create n : LRUCache κ ν) as
  have hany : Meets step (fun _ _ => True) (create n : LRUCache κ ν) as :=
    fun _ _ _ _ _ _ => trivial
  have hbounded : (∀ bs t, bs <+: as → Run step (create n) bs t → t.entries.length ≤ n) ↔
      Meets step Room (create n) as := by
    refine hrun.forall_prefix_iff_meets (I := fun t => t.capacity = n) hany
      ⟨rfl, Nat.zero_le _⟩ ?_ ?_
    · intro t a u ht _ _ _ hu
      obtain rfl : a.apply t = u := Option.some_inj.mp hu
      rw [capacity_apply, ht]
    · intro t a u ht hle _ hu
      obtain rfl : a.apply t = u := Option.some_inj.mp hu
      subst ht
      exact length_apply_le_iff hn' hle
  constructor
  · exact fun h => hbounded.mp h.bounded
  · intro h
    refine ⟨hbounded.mpr h, ?_⟩
    -- Nothing leaves, so there is nothing to compare.
    intro bs t key value _ ht hnew x hx hleft
    have hcap : t.capacity = n := capacity_of_run ht
    exact absurd (mem_put_of_mem (hcap ▸ hn') hnew hx) hleft

theorem lru_iff_room_three : 1 ≤ 3 ∧
    (Lru 3 [Call.put 1 (), .put 2 (), .get 1, .remove 2] ↔
      Meets step Room (create 3) [Call.put 1 (), .put 2 (), .get 1, .remove 2]) :=
  ⟨by decide, lru_iff_room (by decide) _⟩

/-- A second key in a cache for one. -/
theorem exists_not_lru : ∃ as : List (Call ℕ Unit), ¬ Lru 1 as := by
  refine ⟨[.put 1 (), .put 2 ()], fun h => ?_⟩
  have hlen := h.bounded [.put 1 (), .put 2 ()]
    ⟨1, [(1, ()), (2, ())]⟩ (List.prefix_refl _) rfl
  simp at hlen

end PedroDB.LRUCache
