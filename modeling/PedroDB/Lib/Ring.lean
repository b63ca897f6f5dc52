import Mathlib.Data.List.Chain
import Mathlib.Logic.Function.Basic
import Mathlib.Logic.Relation

/-!
# Circular doubly linked lists

Nodes with links to the next and to the previous node. Some of them form a ring through a head:
consecutive nodes are linked both ways, and so are the last one and the head. A node is taken out
of the ring by two assignments, and put in front of the head by four.

## Main definitions

* `Ring.Links` — the links of all nodes
* `Ring.IsRing` — the nodes that form the ring through a head, in order

## Main results

* `IsRing.unlink` — a node is taken out
* `IsRing.link` — a node is put in front of the head
* `IsRing.next_eq_iff` — the links of a ring are mutually inverse
* `IsRing.mem_of_reachable` — they lead to its nodes only
-/

namespace Ring

variable {α : Type*}

/-- The links of the nodes that there are. -/
@[ext] structure Links (α : Type*) where
  next : α → Option α
  prev : α → Option α

namespace Links

/-- Two nodes are linked both ways. -/
def Linked (l : Links α) (x y : α) : Prop := l.next x = some y ∧ l.prev y = some x

variable [DecidableEq α]

def setNext (l : Links α) (x y : α) : Links α :=
  { l with next := Function.update l.next x (some y) }

def setPrev (l : Links α) (x y : α) : Links α :=
  { l with prev := Function.update l.prev x (some y) }

/-- Link two nodes both ways. -/
def join (l : Links α) (x y : α) : Links α := (l.setNext x y).setPrev y x

variable {l : Links α} {a b p x y z : α}

theorem linked_join : (l.join x y).Linked x y :=
  ⟨Function.update_self _ _ _, Function.update_self _ _ _⟩

theorem Linked.join_of_ne (h : l.Linked x y) (hx : x ≠ a) (hy : y ≠ b) : (l.join a b).Linked x y :=
  ⟨(Function.update_of_ne hx _ _).trans h.1, (Function.update_of_ne hy _ _).trans h.2⟩

/-- Taking out a node keeps the links between the others. -/
theorem Linked.bypass (h : l.Linked x y) (hap : l.Linked a p) (hpb : l.Linked p b) (hx : x ≠ p)
    (hy : y ≠ p) : (l.join a b).Linked x y := by
  apply h.join_of_ne
  · rintro rfl
    exact hy (Option.some_inj.mp (h.1.symm.trans hap.1))
  · rintro rfl
    exact hx (Option.some_inj.mp (h.2.symm.trans hpb.2))

end Links

open Links

/-- The nodes `xs` form a ring through the head `h`. -/
structure IsRing (l : Links α) (h : α) (xs : List α) : Prop where
  nodup : (h :: xs).Nodup
  chain : (h :: xs ++ [h]).IsChain l.Linked

namespace IsRing

variable {l l' : Links α} {h p q : α} {xs ys : List α}

theorem nil (hnext : l.next h = some h) (hprev : l.prev h = some h) : IsRing l h [] :=
  ⟨by simp, List.isChain_pair.mpr ⟨hnext, hprev⟩⟩

/-- Only the links of the nodes of the ring matter. -/
theorem congr (hr : IsRing l h xs) (hnext : ∀ x ∈ h :: xs, l'.next x = l.next x)
    (hprev : ∀ x ∈ h :: xs, l'.prev x = l.prev x) : IsRing l' h xs := by
  have hmem : ∀ x ∈ h :: xs ++ [h], x ∈ h :: xs := by
    intro x hx
    rcases List.mem_append.mp hx with hx | hx
    · exact hx
    · exact List.mem_singleton.mp hx ▸ List.mem_cons_self
  refine ⟨hr.nodup, hr.chain.imp_of_mem_imp ?_⟩
  intro x y hx hy hxy
  exact ⟨(hnext x (hmem x hx)).trans hxy.1, (hprev y (hmem y hy)).trans hxy.2⟩

/-- A node that is not in the ring may have any links. -/
theorem of_eq_away (hr : IsRing l h xs) (hp : p ∉ h :: xs)
    (hnext : ∀ x, x ≠ p → l'.next x = l.next x) (hprev : ∀ x, x ≠ p → l'.prev x = l.prev x) :
    IsRing l' h xs := by
  have hne : ∀ x ∈ h :: xs, x ≠ p := fun x hx heq => hp (heq ▸ hx)
  apply hr.congr
  · intro x hx
    exact hnext x (hne x hx)
  · intro x hx
    exact hprev x (hne x hx)

theorem mem_cons_of_mem_concat (hp : p ∈ xs ++ [h]) : p ∈ h :: xs := by
  simpa [or_comm] using hp

theorem mem_concat_of_mem_cons (hp : p ∈ h :: xs) : p ∈ xs ++ [h] := by
  simpa [or_comm] using hp

/-- Every node has a next one. -/
theorem exists_next (hr : IsRing l h xs) (hp : p ∈ h :: xs) : ∃ q ∈ h :: xs, l.Linked p q := by
  have hchain := List.isChain_cons_append_singleton_iff_forall₂.mp hr.chain
  obtain ⟨i, hi, rfl⟩ := List.mem_iff_getElem.mp hp
  have hlen := hchain.length_eq
  have hlinked := hchain.get hi (hlen ▸ hi)
  have hmem := List.get_mem (xs ++ [h]) ⟨i, hlen ▸ hi⟩
  exact ⟨_, mem_cons_of_mem_concat hmem, hlinked⟩

/-- Every node has a previous one. -/
theorem exists_prev (hr : IsRing l h xs) (hp : p ∈ h :: xs) : ∃ q ∈ h :: xs, l.Linked q p := by
  have hchain := List.isChain_cons_append_singleton_iff_forall₂.mp hr.chain
  have hp' : p ∈ xs ++ [h] := mem_concat_of_mem_cons hp
  obtain ⟨i, hi, rfl⟩ := List.mem_iff_getElem.mp hp'
  have hlen := hchain.length_eq
  have hlinked := hchain.get (hlen ▸ hi) hi
  exact ⟨_, List.get_mem (h :: xs) ⟨i, hlen ▸ hi⟩, hlinked⟩

/-- The links of a ring are mutually inverse. -/
theorem next_eq_iff (hr : IsRing l h xs) (hp : p ∈ h :: xs) (hq : q ∈ h :: xs) :
    l.next p = some q ↔ l.prev q = some p := by
  obtain ⟨q', -, hpq⟩ := hr.exists_next hp
  obtain ⟨p', -, hpq'⟩ := hr.exists_prev hq
  constructor
  · intro hnext
    obtain rfl := Option.some_inj.mp (hnext.symm.trans hpq.1)
    exact hpq.2
  · intro hprev
    obtain rfl := Option.some_inj.mp (hprev.symm.trans hpq'.2)
    exact hpq'.1

/-- The links lead from the head to nodes of the ring only. -/
theorem mem_of_reachable (hr : IsRing l h xs)
    (hpath : Relation.ReflTransGen (fun x y => l.next x = some y ∨ l.prev x = some y) h p) :
    p ∈ h :: xs := by
  induction hpath with
  | refl => exact List.mem_cons_self
  | tail _ hstep ih =>
    rcases hstep with hnext | hprev
    · obtain ⟨q, hq, hlinked⟩ := hr.exists_next ih
      obtain rfl := Option.some_inj.mp (hnext.symm.trans hlinked.1)
      exact hq
    · obtain ⟨q, hq, hlinked⟩ := hr.exists_prev ih
      obtain rfl := Option.some_inj.mp (hprev.symm.trans hlinked.2)
      exact hq

/-- Where a chain is cut, the last node in front of the cut is linked to the first one behind. -/
theorem exists_seam (hchain : ((h :: xs) ++ p :: ys).IsChain l.Linked) :
    ∃ a ∈ h :: xs, (h :: xs).getLast? = some a ∧ l.Linked a p ∧ (h :: xs).IsChain l.Linked ∧
      (p :: ys).IsChain l.Linked := by
  obtain ⟨hfront, hback, hseam⟩ := List.isChain_append.mp hchain
  have hlast : (h :: xs).getLast? = some ((h :: xs).getLast (List.cons_ne_nil h xs)) :=
    List.getLast?_eq_some_getLast _
  exact ⟨_, List.getLast_mem _, hlast, hseam _ hlast p rfl, hfront, hback⟩

/-- The last node is linked to the head. -/
theorem exists_last (hr : IsRing l h xs) : ∃ z ∈ h :: xs, l.Linked z h ∧
    (h :: xs).getLast? = some z ∧ (h :: xs).IsChain l.Linked := by
  obtain ⟨z, hz, hlast, hzh, hchain, -⟩ := exists_seam hr.chain
  exact ⟨z, hz, hzh, hlast, hchain⟩

/-- A node stands in the ring once. -/
theorem ne_of_mem (hr : IsRing l h (xs ++ p :: ys)) : ∀ x ∈ h :: (xs ++ ys), p ≠ x := by
  have hperm : (h :: (xs ++ p :: ys)).Perm (p :: h :: (xs ++ ys)) :=
    (List.Perm.cons h List.perm_middle).trans (List.Perm.swap p h _)
  rintro x hx rfl
  exact (List.nodup_cons.mp (hperm.nodup_iff.mp hr.nodup)).1 hx

variable [DecidableEq α]

/-- A node is taken out of the ring, and its neighbours are joined. -/
theorem unlink (hr : IsRing l h (xs ++ p :: ys)) : ∃ a ∈ h :: (xs ++ ys), ∃ b ∈ h :: (xs ++ ys),
    l.Linked a p ∧ l.Linked p b ∧ IsRing (l.join a b) h (xs ++ ys) := by
  have hlist : h :: (xs ++ p :: ys) ++ [h] = (h :: xs) ++ p :: (ys ++ [h]) := by simp
  have hchain := hr.chain
  rw [hlist] at hchain
  -- The neighbours.
  obtain ⟨a, hlast_mem, hlast, hap, hfront, hback⟩ := exists_seam hchain
  obtain ⟨b, rest, hrest⟩ := List.exists_cons_of_ne_nil (List.append_ne_nil_of_right_ne_nil ys
    (List.cons_ne_nil h []))
  rw [hrest, List.isChain_cons_cons] at hback
  obtain ⟨hpb, hback⟩ := hback
  have hb_mem : b ∈ ys ++ [h] := hrest ▸ List.mem_cons_self
  -- Neither side of the ring has the node itself.
  have hne_front : ∀ x ∈ h :: xs, x ≠ p := by
    intro x hx
    exact (hr.ne_of_mem x (by grind)).symm
  have hne_back : ∀ x ∈ b :: rest, x ≠ p := by
    intro x hx
    rw [← hrest] at hx
    exact (hr.ne_of_mem x (by grind)).symm
  have hsub : (h :: (xs ++ ys)).Sublist (h :: (xs ++ p :: ys)) :=
    ((List.sublist_cons_self p ys).append_left xs).cons_cons h
  refine ⟨a, by grind, b, by grind, hap, hpb, hr.nodup.sublist hsub, ?_⟩
  have hlist' : h :: (xs ++ ys) ++ [h] = (h :: xs) ++ b :: rest := by
    rw [← hrest]
    simp
  rw [hlist']
  apply List.isChain_append.mpr
  refine ⟨hfront.imp_of_mem_imp ?_, hback.imp_of_mem_imp ?_, ?_⟩
  · intro x y hx hy hxy
    exact hxy.bypass hap hpb (hne_front x hx) (hne_front y hy)
  · intro x y hx hy hxy
    exact hxy.bypass hap hpb (hne_back x hx) (hne_back y hy)
  · intro x hx y hy
    obtain rfl : a = x := Option.some_inj.mp (hlast.symm.trans hx)
    obtain rfl : b = y := Option.some_inj.mp hy
    exact linked_join

/-- A node is put in front of the head, behind the last node. -/
theorem link (hr : IsRing l h xs) (hp : p ∉ h :: xs) : ∃ z ∈ h :: xs, l.Linked z h ∧
    IsRing ((l.join z p).join p h) h (xs ++ [p]) := by
  obtain ⟨z, hz, hzh, hlast, hchain⟩ := hr.exists_last
  have hzp : z ≠ p := fun heq => hp (heq ▸ hz)
  have hhp : h ≠ p := fun heq => hp (heq ▸ List.mem_cons_self)
  have hh : h ∉ xs := (List.nodup_cons.mp hr.nodup).1
  refine ⟨z, hz, hzh, ?_, ?_⟩
  · have hperm : (h :: (xs ++ [p])).Perm (p :: h :: xs) :=
      (List.Perm.cons h (List.perm_append_singleton p xs)).trans (List.Perm.swap p h xs)
    exact hperm.nodup_iff.mpr (List.nodup_cons.mpr ⟨hp, hr.nodup⟩)
  have hlist : h :: (xs ++ [p]) ++ [h] = (h :: xs) ++ [p, h] := by simp
  rw [hlist]
  apply List.isChain_append.mpr
  refine ⟨hchain.imp_of_mem_tail_imp ?_, List.isChain_pair.mpr linked_join, ?_⟩
  · -- The links in front of the last node stay.
    intro x y hx hy hxy
    have hyh : y ≠ h := fun heq => hh (heq ▸ hy)
    have hyp : y ≠ p := fun heq => hp (heq ▸ List.mem_cons_of_mem h hy)
    have hxp : x ≠ p := fun heq => hp (heq ▸ hx)
    have hxz : x ≠ z := by
      rintro rfl
      exact hyh (Option.some_inj.mp (hxy.1.symm.trans hzh.1))
    exact (hxy.join_of_ne hxz hyp).join_of_ne hxp hyh
  · intro x hx y hy
    obtain rfl : z = x := Option.some_inj.mp (hlast.symm.trans hx)
    obtain rfl : p = y := Option.some_inj.mp hy
    exact linked_join.join_of_ne hzp hhp.symm

end IsRing
end Ring
