import Mathlib.Data.List.AList
import PedroDB.Cache.LRU
import PedroDB.Lib.Ring

/-!
# The LRU cache with its pointers

`LRUCache` links its entries in a ring through `lru_`. Here every pointer is followed and assigned
as the source does it. A function that follows a null pointer, or one to memory that was freed, has
no result.

## Main definitions

* `EntryPtr`, `LinkedCache.Entry`, `LinkedCache` — the entries and what points to them
* `LinkedCache.get`, `remove`, `evict`, `put`
* `LinkedCache.Represents` — a ring that spells out the entries of an `LRUCache`

## Main results

* `unlinkNext_eq`, `unlinkPrev_eq`, `linkLast_eq` — what the assignments do to the ring
* `Represents.get`, `remove`, `evict`, `put` — the functions do what those of `LRUCache` do
-/

namespace PedroDB

/-- An `Entry*`: null, the address of `lru_`, or one that `New` returned. -/
inductive EntryPtr
  | null
  | lru
  | node (addr : ℕ)
  deriving DecidableEq

/-- `LRUCache::Entry` -/
structure LinkedCache.Entry (κ ν : Type) where
  prev : EntryPtr
  next : EntryPtr
  key : κ
  value : ν

/-- `LRUCache`, with the memory of its entries. -/
structure LinkedCache (κ ν : Type) where
  keys : AList fun _ : κ => EntryPtr
  capacity : ℕ
  /-- What is at an address: `lru_`, or an entry that was allocated and not freed. -/
  memory : EntryPtr → Option (LinkedCache.Entry κ ν)

namespace LinkedCache

variable {κ ν : Type}

/-! ### Pointers -/

/-- `p->prev` -/
def prev (c : LinkedCache κ ν) (p : EntryPtr) : Option EntryPtr := (c.memory p).map Entry.prev

/-- `p->next` -/
def next (c : LinkedCache κ ν) (p : EntryPtr) : Option EntryPtr := (c.memory p).map Entry.next

/-- An assignment to members of `*p`. -/
def assign (c : LinkedCache κ ν) (p : EntryPtr) (f : Entry κ ν → Entry κ ν) :
    Option (LinkedCache κ ν) :=
  (c.memory p).map fun e => { c with memory := Function.update c.memory p (some (f e)) }

/-- `p->prev = q` -/
def setPrev (c : LinkedCache κ ν) (p q : EntryPtr) : Option (LinkedCache κ ν) :=
  c.assign p fun e => { e with prev := q }

/-- `p->next = q` -/
def setNext (c : LinkedCache κ ν) (p q : EntryPtr) : Option (LinkedCache κ ν) :=
  c.assign p fun e => { e with next := q }

/-- `New`, when the allocator returns the address `addr`. -/
def new [Inhabited κ] [Inhabited ν] (c : LinkedCache κ ν) (addr : ℕ) : LinkedCache κ ν :=
  { c with
    memory := Function.update c.memory (.node addr)
      (some { prev := .null, next := .null, key := default, value := default }) }

/-- `Free` -/
def free (c : LinkedCache κ ν) : EntryPtr → Option (LinkedCache κ ν)
  | .node addr => (c.memory (.node addr)).map fun _ =>
      { c with memory := Function.update c.memory (.node addr) none }
  -- Only what `New` returned may be deleted.
  | _ => none

/-- `ptr->next->prev = ptr->prev; ptr->prev->next = ptr->next;` -/
def unlinkNext (c : LinkedCache κ ν) (ptr : EntryPtr) : Option (LinkedCache κ ν) := do
  let c ← c.setPrev (← c.next ptr) (← c.prev ptr)
  c.setNext (← c.prev ptr) (← c.next ptr)

/-- `ptr->prev->next = ptr->next; ptr->next->prev = ptr->prev;` -/
def unlinkPrev (c : LinkedCache κ ν) (ptr : EntryPtr) : Option (LinkedCache κ ν) := do
  let c ← c.setNext (← c.prev ptr) (← c.next ptr)
  c.setPrev (← c.next ptr) (← c.prev ptr)

/-- `ptr->prev = lru_.prev; ptr->next = &lru_; ptr->prev->next = ptr; ptr->next->prev = ptr;` -/
def linkLast (c : LinkedCache κ ν) (ptr : EntryPtr) : Option (LinkedCache κ ν) := do
  let c ← c.setPrev ptr (← c.prev .lru)
  let c ← c.setNext ptr .lru
  let c ← c.setNext (← c.prev ptr) ptr
  c.setPrev (← c.next ptr) ptr

/-! ### The functions of the cache -/

/-- The constructor. -/
def create [Inhabited κ] [Inhabited ν] (capacity : ℕ) : LinkedCache κ ν :=
  { keys := ∅
    capacity
    memory := Function.update (fun _ => none) .lru
      (some { prev := .lru, next := .lru, key := default, value := default }) }

variable [DecidableEq κ]

/-- `Get`; the value is reported if it returns true. -/
def get (c : LinkedCache κ ν) (key : κ) : Option (Option ν × LinkedCache κ ν) :=
  if c.capacity = 0 then some (none, c)
  else
    match c.keys.lookup key with
    | none => some (none, c)
    | some ptr => do
      let entry ← c.memory ptr
      let c ← c.unlinkNext ptr
      let c ← c.linkLast ptr
      return (some entry.value, c)

/-- `Remove` -/
def remove (c : LinkedCache κ ν) (key : κ) : Option (Option ν × LinkedCache κ ν) :=
  if c.capacity = 0 then some (none, c)
  else
    match c.keys.lookup key with
    | none => some (none, c)
    | some ptr => do
      let entry ← c.memory ptr
      let c ← c.unlinkPrev ptr
      let c ← c.free ptr
      return (some entry.value, { c with keys := c.keys.erase key })

/-- `Evict`. The source returns at once when `keys_` is not empty. -/
def evict (c : LinkedCache κ ν) : Option (LinkedCache κ ν) :=
  if c.keys.keys ≠ [] then some c
  else do
    let ptr ← c.next .lru
    if ptr = .lru then return c
    else
      let entry ← c.memory ptr
      -- The iterator to erase has to be one of an element.
      if (c.keys.lookup entry.key).isNone then none
      else
        let c : LinkedCache κ ν := { c with keys := c.keys.erase entry.key }
        let c ← c.unlinkPrev ptr
        c.free ptr

/-- `Put`, when `New` returns the address `addr`. -/
def put [Inhabited κ] [Inhabited ν] (c : LinkedCache κ ν) (key : κ) (value : ν) (addr : ℕ) :
    Option (LinkedCache κ ν) :=
  if c.capacity = 0 then some c
  else
    match c.keys.lookup key with
    | some ptr => do
      let c ← c.unlinkPrev ptr
      let c ← c.linkLast ptr
      c.assign ptr fun entry => { entry with value }
    | none => do
      let c ← if c.keys.keys.length + 1 = c.capacity then c.evict else some c
      let c := c.new addr
      let ptr := EntryPtr.node addr
      let c ← c.linkLast ptr
      let c ← c.assign ptr fun entry => { entry with key }
      let c ← c.assign ptr fun entry => { entry with value }
      return { c with keys := c.keys.insert key ptr }

/-! ### What the assignments do to the ring -/

omit [DecidableEq κ]

/-- The links of all entries. -/
def links (c : LinkedCache κ ν) : Ring.Links EntryPtr := ⟨c.next, c.prev⟩

/-- Key and value of an entry. -/
def content (c : LinkedCache κ ν) (p : EntryPtr) : Option (κ × ν) :=
  (c.memory p).map fun e => (e.key, e.value)

/-- Only links are different. -/
structure Relinks (c c' : LinkedCache κ ν) : Prop where
  keys : c'.keys = c.keys
  capacity : c'.capacity = c.capacity
  content : c'.content = c.content

variable {c c' c'' : LinkedCache κ ν} {p q : EntryPtr} {xs ys : List EntryPtr}

theorem Relinks.trans (h : c.Relinks c') (h' : c'.Relinks c'') : c.Relinks c'' :=
  ⟨h'.keys.trans h.keys, h'.capacity.trans h.capacity, h'.content.trans h.content⟩

theorem isSome_content : (c.content p).isSome = (c.memory p).isSome := Option.isSome_map

section Assign

variable {e : Entry κ ν} {f : Entry κ ν → Entry κ ν} {v : Option (Entry κ ν)}

theorem next_update : ({ c with memory := Function.update c.memory p v } : LinkedCache κ ν).next =
    Function.update c.next p (v.map Entry.next) := by
  funext x
  exact Function.apply_update (fun _ => Option.map Entry.next) c.memory p v x

theorem prev_update : ({ c with memory := Function.update c.memory p v } : LinkedCache κ ν).prev =
    Function.update c.prev p (v.map Entry.prev) := by
  funext x
  exact Function.apply_update (fun _ => Option.map Entry.prev) c.memory p v x

theorem content_update :
    ({ c with memory := Function.update c.memory p v } : LinkedCache κ ν).content =
      Function.update c.content p (v.map fun e => (e.key, e.value)) := by
  funext x
  exact Function.apply_update (fun _ => Option.map fun e : Entry κ ν => (e.key, e.value)) c.memory
    p v x

theorem assign_eq (he : c.memory p = some e) :
    c.assign p f = some { c with memory := Function.update c.memory p (some (f e)) } := by
  rw [assign, he]
  rfl

theorem next_eq_self (he : c.memory p = some e) :
    Function.update c.next p (some e.next) = c.next := by
  apply Function.update_eq_self_iff.mpr
  rw [next, he]
  rfl

theorem prev_eq_self (he : c.memory p = some e) :
    Function.update c.prev p (some e.prev) = c.prev := by
  apply Function.update_eq_self_iff.mpr
  rw [prev, he]
  rfl

theorem content_eq_self (he : c.memory p = some e) :
    Function.update c.content p (some (e.key, e.value)) = c.content := by
  apply Function.update_eq_self_iff.mpr
  rw [content, he]
  rfl

end Assign

theorem exists_memory (hp : (c.content p).isSome) : ∃ e, c.memory p = some e := by
  rw [isSome_content] at hp
  exact Option.isSome_iff_exists.mp hp

theorem setNext_eq (hp : (c.content p).isSome) :
    ∃ c', c.setNext p q = some c' ∧ c.Relinks c' ∧ c'.links = c.links.setNext p q := by
  obtain ⟨e, he⟩ := exists_memory hp
  refine ⟨_, assign_eq he, ⟨rfl, rfl, content_update.trans (content_eq_self (e := e) he)⟩, ?_⟩
  exact Ring.Links.ext next_update (prev_update.trans (prev_eq_self (e := e) he))

theorem setPrev_eq (hp : (c.content p).isSome) :
    ∃ c', c.setPrev p q = some c' ∧ c.Relinks c' ∧ c'.links = c.links.setPrev p q := by
  obtain ⟨e, he⟩ := exists_memory hp
  refine ⟨_, assign_eq he, ⟨rfl, rfl, content_update.trans (content_eq_self (e := e) he)⟩, ?_⟩
  exact Ring.Links.ext (next_update.trans (next_eq_self (e := e) he)) prev_update

section Splices

open Ring Ring.Links

variable {a b z : EntryPtr}

theorem next_of_links {l : Links EntryPtr} (h : c.links = l) (x : EntryPtr) : c.next x = l.next x :=
  h ▸ rfl

theorem prev_of_links {l : Links EntryPtr} (h : c.links = l) (x : EntryPtr) : c.prev x = l.prev x :=
  h ▸ rfl

/-- Taking out an entry, the next one first. -/
theorem unlinkNext_eq (hr : IsRing c.links .lru (xs ++ p :: ys))
    (halloc : ∀ x ∈ EntryPtr.lru :: (xs ++ ys), (c.content x).isSome) :
    ∃ c', c.unlinkNext p = some c' ∧ c.Relinks c' ∧ IsRing c'.links .lru (xs ++ ys) := by
  obtain ⟨a, ha, b, hb, hap, hpb, hr'⟩ := hr.unlink
  have hne : ∀ x ∈ EntryPtr.lru :: (xs ++ ys), p ≠ x := hr.ne_of_mem
  obtain ⟨c₁, h₁, hsame₁, hlinks₁⟩ := setPrev_eq (q := a) (halloc b hb)
  have hprev₁ : c₁.prev p = some a :=
    (prev_of_links hlinks₁ p).trans ((Function.update_of_ne (hne b hb) _ _).trans hap.2)
  have hnext₁ : c₁.next p = some b := (next_of_links hlinks₁ p).trans hpb.1
  obtain ⟨c₂, h₂, hsame₂, hlinks₂⟩ := setNext_eq (q := b) (hsame₁.content ▸ halloc a ha)
  refine ⟨c₂, ?_, hsame₁.trans hsame₂, ?_⟩
  · have hnext : c.next p = some b := hpb.1
    have hprev : c.prev p = some a := hap.2
    simp only [unlinkNext, hnext, hprev, h₁, hnext₁, hprev₁, h₂, Option.bind_eq_bind,
      Option.bind_some]
  · rw [hlinks₂, hlinks₁]
    exact hr'

/-- Taking out an entry, the previous one first. -/
theorem unlinkPrev_eq (hr : IsRing c.links .lru (xs ++ p :: ys))
    (halloc : ∀ x ∈ EntryPtr.lru :: (xs ++ ys), (c.content x).isSome) :
    ∃ c', c.unlinkPrev p = some c' ∧ c.Relinks c' ∧ IsRing c'.links .lru (xs ++ ys) := by
  obtain ⟨a, ha, b, hb, hap, hpb, hr'⟩ := hr.unlink
  have hne : ∀ x ∈ EntryPtr.lru :: (xs ++ ys), p ≠ x := hr.ne_of_mem
  obtain ⟨c₁, h₁, hsame₁, hlinks₁⟩ := setNext_eq (q := b) (halloc a ha)
  have hnext₁ : c₁.next p = some b :=
    (next_of_links hlinks₁ p).trans ((Function.update_of_ne (hne a ha) _ _).trans hpb.1)
  have hprev₁ : c₁.prev p = some a := (prev_of_links hlinks₁ p).trans hap.2
  obtain ⟨c₂, h₂, hsame₂, hlinks₂⟩ := setPrev_eq (q := a) (hsame₁.content ▸ halloc b hb)
  refine ⟨c₂, ?_, hsame₁.trans hsame₂, ?_⟩
  · have hnext : c.next p = some b := hpb.1
    have hprev : c.prev p = some a := hap.2
    simp only [unlinkPrev, hnext, hprev, h₁, hnext₁, hprev₁, h₂, Option.bind_eq_bind,
      Option.bind_some]
  · rw [hlinks₂, hlinks₁]
    exact hr'

/-- Putting an entry in front of `lru_`. -/
theorem linkLast_eq (hr : IsRing c.links .lru xs) (hp : p ∉ EntryPtr.lru :: xs)
    (halloc : ∀ x ∈ p :: EntryPtr.lru :: xs, (c.content x).isSome) :
    ∃ c', c.linkLast p = some c' ∧ c.Relinks c' ∧ IsRing c'.links .lru (xs ++ [p]) := by
  obtain ⟨z, hz, hzh, hr'⟩ := hr.link hp
  have hzp : p ≠ z := fun heq => hp (heq ▸ hz)
  obtain ⟨c₁, h₁, hsame₁, hlinks₁⟩ := setPrev_eq (q := z) (halloc p List.mem_cons_self)
  obtain ⟨c₂, h₂, hsame₂, hlinks₂⟩ :=
    setNext_eq (q := .lru) (hsame₁.content ▸ halloc p List.mem_cons_self)
  have hsame₂ := hsame₁.trans hsame₂
  obtain ⟨c₃, h₃, hsame₃, hlinks₃⟩ :=
    setNext_eq (q := p) (hsame₂.content ▸ halloc z (List.mem_cons_of_mem p hz))
  have hsame₃ := hsame₂.trans hsame₃
  obtain ⟨c₄, h₄, hsame₄, hlinks₄⟩ := setPrev_eq (q := p)
    (hsame₃.content ▸ halloc .lru (List.mem_cons_of_mem p List.mem_cons_self))
  -- What is read between the assignments.
  have hprev : c.prev .lru = some z := hzh.2
  have hprev₂ : c₂.prev p = some z := by
    rw [prev_of_links hlinks₂, hlinks₁]
    exact Function.update_self _ _ _
  have hnext₃ : c₃.next p = some .lru := by
    rw [next_of_links hlinks₃, hlinks₂]
    exact (Function.update_of_ne hzp _ _).trans (Function.update_self _ _ _)
  refine ⟨c₄, ?_, hsame₃.trans hsame₄, ?_⟩
  · simp only [linkLast, hprev, h₁, h₂, hprev₂, h₃, hnext₃, h₄, Option.bind_eq_bind,
      Option.bind_some]
  · have hlinks : c₄.links = (c.links.join z p).join p .lru := by
      rw [hlinks₄, hlinks₃, hlinks₂, hlinks₁]
      exact Ring.Links.ext (Function.update_comm hzp _ _ _) rfl
    rw [hlinks]
    exact hr'

end Splices

/-- An assignment to key or value. -/
theorem assign_content {f : Entry κ ν → Entry κ ν} {g : κ × ν → κ × ν} (hp : (c.content p).isSome)
    (hnext : ∀ e, (f e).next = e.next) (hprev : ∀ e, (f e).prev = e.prev)
    (hg : ∀ e, ((f e).key, (f e).value) = g (e.key, e.value)) :
    ∃ c', c.assign p f = some c' ∧ c'.keys = c.keys ∧ c'.capacity = c.capacity ∧
      c'.links = c.links ∧ c'.content = Function.update c.content p ((c.content p).map g) := by
  obtain ⟨e, he⟩ := exists_memory hp
  refine ⟨_, assign_eq he, rfl, rfl, ?_, ?_⟩
  · apply Ring.Links.ext
    · refine next_update.trans ?_
      rw [Option.map_some, hnext]
      exact next_eq_self he
    · refine prev_update.trans ?_
      rw [Option.map_some, hprev]
      exact prev_eq_self he
  · rw [content_update, Option.map_some, hg, content, he]
    rfl

/-- Memory away from the ring may be taken or given back. -/
theorem isRing_update {v : Option (Entry κ ν)} (hr : Ring.IsRing c.links .lru xs)
    (hp : p ∉ EntryPtr.lru :: xs) :
    Ring.IsRing ({ c with memory := Function.update c.memory p v } : LinkedCache κ ν).links
      .lru xs := by
  apply hr.of_eq_away hp
  · intro x hx
    exact (congrFun next_update x).trans (Function.update_of_ne hx _ _)
  · intro x hx
    exact (congrFun prev_update x).trans (Function.update_of_ne hx _ _)

/-- Freeing an entry that is not in the ring any more. -/
theorem free_eq {addr : ℕ} (hr : Ring.IsRing c.links .lru xs)
    (hp : EntryPtr.node addr ∉ EntryPtr.lru :: xs) (hcontent : (c.content (.node addr)).isSome) :
    ∃ c', c.free (.node addr) = some c' ∧ c'.keys = c.keys ∧ c'.capacity = c.capacity ∧
      Ring.IsRing c'.links .lru xs ∧
      c'.content = Function.update c.content (.node addr) none := by
  obtain ⟨e, he⟩ := exists_memory hcontent
  refine ⟨{ c with memory := Function.update c.memory (.node addr) none }, ?_, rfl, rfl,
    isRing_update hr hp, content_update⟩
  rw [free, he]
  rfl

/-- A new entry is in nobody's way. -/
theorem new_eq [Inhabited κ] [Inhabited ν] {addr : ℕ} (hr : Ring.IsRing c.links .lru xs)
    (hp : EntryPtr.node addr ∉ EntryPtr.lru :: xs) :
    Ring.IsRing (c.new addr).links .lru xs ∧
      (c.new addr).content = Function.update c.content (.node addr) (some default) :=
  ⟨isRing_update hr hp, content_update⟩

/-! ### The entries of the ring -/

/-- The cache has the entries of `l`: they form the ring, nothing else is allocated, and `keys_`
leads to them. -/
structure Represents [DecidableEq κ] (c : LinkedCache κ ν) (nodes : List EntryPtr)
    (l : LRUCache κ ν) : Prop where
  capacity : c.capacity = l.capacity
  ring : Ring.IsRing c.links .lru nodes
  allocated : ∀ p, (c.content p).isSome ↔ p ∈ EntryPtr.lru :: nodes
  onHeap : ∀ p ∈ nodes, ∃ addr, p = .node addr
  entries : nodes.map c.content = l.entries.map some
  keys : ∀ key p, c.keys.lookup key = some p ↔ p ∈ nodes ∧ (c.content p).map Prod.fst = some key
  wf : l.WF

/-- The entry of a key, in the middle of the ring. -/
structure Splits (c : LinkedCache κ ν) (nodes : List EntryPtr) (l : LRUCache κ ν) (key : κ)
    (p : EntryPtr) (value : ν) (xs ys : List EntryPtr) (es es' : List (κ × ν)) : Prop where
  nodes : nodes = xs ++ p :: ys
  entries : l.entries = es ++ (key, value) :: es'
  content : c.content p = some (key, value)
  front : xs.map c.content = es.map some
  back : ys.map c.content = es'.map some

variable {nodes : List EntryPtr} {l : LRUCache κ ν} {key : κ} {value value' : ν}
  {es es' : List (κ × ν)}

/-- What is reported is the value of the entry. -/
theorem Splits.exists_memory (hs : Splits c nodes l key p value xs ys es es') :
    ∃ e, c.memory p = some e ∧ e.value = value := by
  obtain ⟨e, he, hcontent⟩ := Option.map_eq_some_iff.mp hs.content
  exact ⟨e, he, congrArg Prod.snd hcontent⟩

theorem Splits.mem_nodes (hs : Splits c nodes l key p value xs ys es es') : p ∈ nodes := by
  rw [hs.nodes]
  exact List.mem_append_right xs List.mem_cons_self

theorem Splits.mem_nodes_iff (hs : Splits c nodes l key p value xs ys es es') (q : EntryPtr) :
    q ∈ nodes ↔ q = p ∨ q ∈ xs ++ ys := by
  rw [hs.nodes]
  simp only [List.mem_append, List.mem_cons]
  exact or_left_comm

/-- The content of the other entries stays the same. -/
theorem map_content_of_ne {v : Option (κ × ν)} (hne : ∀ x ∈ xs, x ≠ p) :
    xs.map (Function.update c.content p v) = xs.map c.content := by
  apply List.map_congr_left
  intro x hx
  exact Function.update_of_ne (hne x hx) _ _

variable [DecidableEq κ]

namespace Represents

theorem exists_splits (h : Represents c nodes l) (hp : c.keys.lookup key = some p) :
    ∃ value xs ys es es', Splits c nodes l key p value xs ys es es' := by
  obtain ⟨hmem, hkey⟩ := (h.keys key p).mp hp
  obtain ⟨xs, ys, hnodes⟩ := List.append_of_mem hmem
  have hentries := h.entries
  rw [hnodes, List.map_append, List.map_cons] at hentries
  obtain ⟨es, rest, hes, hfront, hrest⟩ := List.map_eq_append_iff.mp hentries.symm
  obtain ⟨⟨k, value⟩, es', rfl, hcontent, hback⟩ := List.map_eq_cons_iff.mp hrest
  rw [← hcontent] at hkey
  obtain rfl : k = key := Option.some_inj.mp hkey
  exact ⟨value, xs, ys, es, es', hnodes, hes, hcontent.symm, hfront.symm, hback.symm⟩

/-- A key that `keys_` does not have is not in the ring. -/
theorem find_of_lookup (h : Represents c nodes l) (hp : c.keys.lookup key = none) :
    l.find key = none := by
  rw [Option.eq_none_iff_forall_ne_some]
  intro value hfind
  have hmem : some (key, value) ∈ nodes.map c.content := by
    rw [h.entries]
    exact List.mem_map_of_mem (LRUCache.find_mem hfind)
  obtain ⟨p, hp', hcontent⟩ := List.mem_map.mp hmem
  have hlookup := (h.keys key p).mpr ⟨hp', by rw [hcontent]; rfl⟩
  rw [hp] at hlookup
  cases hlookup

theorem ring_split (h : Represents c nodes l) (hs : Splits c nodes l key p value xs ys es es') :
    Ring.IsRing c.links .lru (xs ++ p :: ys) :=
  hs.nodes ▸ h.ring

theorem ne_of_mem (h : Represents c nodes l) (hs : Splits c nodes l key p value xs ys es es') :
    ∀ x ∈ EntryPtr.lru :: (xs ++ ys), x ≠ p :=
  fun x hx => ((h.ring_split hs).ne_of_mem x hx).symm

/-- The neighbours of an entry are allocated. -/
theorem allocated_others (h : Represents c nodes l)
    (hs : Splits c nodes l key p value xs ys es es') :
    ∀ x ∈ EntryPtr.lru :: (xs ++ ys), (c.content x).isSome := by
  intro x hx
  apply (h.allocated x).mpr
  rcases List.mem_cons.mp hx with rfl | hx
  · exact List.mem_cons_self
  · exact List.mem_cons_of_mem _ ((hs.mem_nodes_iff x).mpr (Or.inr hx))

/-- The entry that was taken out is put at the end of the ring. -/
theorem linkLast_of_unlinked (h : Represents c nodes l)
    (hs : Splits c nodes l key p value xs ys es es') (hsame : c.Relinks c')
    (hring : Ring.IsRing c'.links .lru (xs ++ ys)) :
    ∃ c'', c'.linkLast p = some c'' ∧ c.Relinks c'' ∧
      Ring.IsRing c''.links .lru (xs ++ ys ++ [p]) := by
  have hp : p ∉ EntryPtr.lru :: (xs ++ ys) := fun hmem => h.ne_of_mem hs p hmem rfl
  have halloc : ∀ x ∈ p :: EntryPtr.lru :: (xs ++ ys), (c'.content x).isSome := by
    intro x hx
    rw [hsame.content]
    rcases List.mem_cons.mp hx with rfl | hx
    · rw [hs.content]
      rfl
    · exact h.allocated_others hs x hx
  obtain ⟨c'', hlink, hsame', hring'⟩ := linkLast_eq hring hp halloc
  exact ⟨c'', hlink, hsame.trans hsame', hring'⟩

/-- The entry of a key was moved to the end of the ring, and has this value now. -/
theorem moved (h : Represents c nodes l) (hs : Splits c nodes l key p value xs ys es es')
    (hkeys : c'.keys = c.keys) (hcapacity : c'.capacity = c.capacity)
    (hring : Ring.IsRing c'.links .lru (xs ++ ys ++ [p]))
    (hcontent : c'.content = Function.update c.content p (some (key, value')))
    (hwf : ((l.unlink key).link key value').WF) :
    Represents c' (xs ++ ys ++ [p]) ((l.unlink key).link key value') := by
  have hmem : ∀ q, q ∈ xs ++ ys ++ [p] ↔ q ∈ nodes := by
    intro q
    rw [hs.mem_nodes_iff, List.mem_append, List.mem_singleton, or_comm]
  have hfst : ∀ q, (c'.content q).map Prod.fst = (c.content q).map Prod.fst := by
    intro q
    rw [hcontent]
    by_cases hq : q = p
    · rw [hq, Function.update_self, hs.content]
      rfl
    · rw [Function.update_of_ne hq]
  refine ⟨hcapacity.trans h.capacity, hring, ?_, ?_, ?_, ?_, hwf⟩
  · intro q
    have hsome : (c'.content q).isSome = (c.content q).isSome := by
      rw [← Option.isSome_map (f := Prod.fst), hfst, Option.isSome_map]
    rw [hsome, h.allocated, List.mem_cons, List.mem_cons, hmem]
  · intro q hq
    exact h.onHeap q ((hmem q).mp hq)
  · have hne := h.ne_of_mem hs
    have hunlink := (LRUCache.find_unlink_of_eq h.wf.nodup hs.entries).2
    rw [hcontent, List.map_append, map_content_of_ne fun x hx => hne x (List.mem_cons_of_mem _ hx),
      List.map_append, hs.front, hs.back, LRUCache.link, hunlink]
    simp
  · intro k q
    rw [hkeys, h.keys, hmem, hfst]

/-- The entry of a key was taken out of the ring and freed. -/
theorem removed (h : Represents c nodes l) (hs : Splits c nodes l key p value xs ys es es')
    (hkeys : c'.keys = c.keys.erase key) (hcapacity : c'.capacity = c.capacity)
    (hring : Ring.IsRing c'.links .lru (xs ++ ys))
    (hcontent : c'.content = Function.update c.content p none) (hwf : (l.unlink key).WF) :
    Represents c' (xs ++ ys) (l.unlink key) := by
  have hne : ∀ x ∈ EntryPtr.lru :: (xs ++ ys), x ≠ p := h.ne_of_mem hs
  have hsame : ∀ x ∈ EntryPtr.lru :: (xs ++ ys), c'.content x = c.content x := by
    intro x hx
    rw [hcontent, Function.update_of_ne (hne x hx)]
  refine ⟨hcapacity.trans h.capacity, hring, ?_, ?_, ?_, ?_, hwf⟩
  · intro q
    by_cases hq : q = p
    · -- The freed entry is not in the ring any more.
      have hnot : q ∉ EntryPtr.lru :: (xs ++ ys) := fun hmem => hne q hmem hq
      simp only [hcontent, hq, Function.update_self, Option.isSome_none, Bool.false_eq_true,
        false_iff]
      exact hq ▸ hnot
    · rw [hcontent, Function.update_of_ne hq, h.allocated, List.mem_cons, List.mem_cons,
        hs.mem_nodes_iff, or_iff_right hq]
  · intro q hq
    exact h.onHeap q ((hs.mem_nodes_iff q).mpr (Or.inr hq))
  · rw [hcontent, map_content_of_ne fun x hx => hne x (List.mem_cons_of_mem _ hx),
      List.map_append, hs.front, hs.back, (LRUCache.find_unlink_of_eq h.wf.nodup hs.entries).2,
      List.map_append]
  · intro k q
    have hp : c.keys.lookup key = some p :=
      (h.keys key p).mpr ⟨hs.mem_nodes, by rw [hs.content]; rfl⟩
    by_cases hk : k = key
    · -- No other entry has this key.
      subst hk
      rw [hkeys, AList.lookup_erase]
      constructor
      · intro hnone
        cases hnone
      · rintro ⟨hq, hqk⟩
        rw [hsame q (List.mem_cons_of_mem _ hq)] at hqk
        have hq' := (h.keys k q).mpr ⟨(hs.mem_nodes_iff q).mpr (Or.inr hq), hqk⟩
        have heq : q = p := Option.some_inj.mp (hq'.symm.trans hp)
        exact absurd heq (hne q (List.mem_cons_of_mem _ hq))
    · rw [hkeys, AList.lookup_erase_ne hk, h.keys]
      constructor
      · rintro ⟨hq, hqk⟩
        rcases (hs.mem_nodes_iff q).mp hq with rfl | hq
        · rw [hs.content] at hqk
          exact absurd (Option.some_inj.mp hqk).symm hk
        · exact ⟨hq, by rw [hsame q (List.mem_cons_of_mem _ hq)]; exact hqk⟩
      · rintro ⟨hq, hqk⟩
        rw [hsame q (List.mem_cons_of_mem _ hq)] at hqk
        exact ⟨(hs.mem_nodes_iff q).mpr (Or.inr hq), hqk⟩

/-- An entry for a new key was put at the end of the ring. -/
theorem added (h : Represents c nodes l) {addr : ℕ} (hp : EntryPtr.node addr ∉ nodes)
    (hlookup : c.keys.lookup key = none)
    (hkeys : c'.keys = c.keys.insert key (.node addr)) (hcapacity : c'.capacity = c.capacity)
    (hring : Ring.IsRing c'.links .lru (nodes ++ [.node addr]))
    (hcontent : c'.content = Function.update c.content (.node addr) (some (key, value)))
    (hwf : (l.link key value).WF) :
    Represents c' (nodes ++ [.node addr]) (l.link key value) := by
  have hne : ∀ x ∈ nodes, x ≠ .node addr := fun x hx heq => hp (heq ▸ hx)
  refine ⟨hcapacity.trans h.capacity, hring, ?_, ?_, ?_, ?_, hwf⟩
  · intro q
    by_cases hq : q = .node addr
    · simp [hcontent, hq]
    · rw [hcontent, Function.update_of_ne hq, h.allocated]
      simp [hq]
  · intro q hq
    rcases List.mem_append.mp hq with hq | hq
    · exact h.onHeap q hq
    · exact ⟨addr, List.mem_singleton.mp hq⟩
  · rw [hcontent, List.map_append, map_content_of_ne hne, h.entries, LRUCache.link]
    simp
  · intro k q
    by_cases hk : k = key
    · -- No other entry has this key.
      subst hk
      rw [hkeys, AList.lookup_insert, Option.some_inj]
      constructor
      · rintro rfl
        simp [hcontent]
      · rintro ⟨hq, hqk⟩
        rcases List.mem_append.mp hq with hq | hq
        · rw [hcontent, Function.update_of_ne (hne q hq)] at hqk
          have hq' := (h.keys k q).mpr ⟨hq, hqk⟩
          rw [hlookup] at hq'
          cases hq'
        · exact (List.mem_singleton.mp hq).symm
    · rw [hkeys, AList.lookup_insert_ne hk, h.keys]
      constructor
      · rintro ⟨hq, hqk⟩
        refine ⟨List.mem_append_left _ hq, ?_⟩
        rw [hcontent, Function.update_of_ne (hne q hq)]
        exact hqk
      · rintro ⟨hq, hqk⟩
        rcases List.mem_append.mp hq with hq | hq
        · rw [hcontent, Function.update_of_ne (hne q hq)] at hqk
          exact ⟨hq, hqk⟩
        · obtain rfl := List.mem_singleton.mp hq
          rw [hcontent, Function.update_self] at hqk
          exact absurd (Option.some_inj.mp hqk).symm hk

/-! ### The functions do what those of `LRUCache` do -/

/-- `Evict` takes nothing out: with keys it returns at once, and without keys the ring is empty. -/
theorem evict (h : Represents c nodes l) : c.evict = some c := by
  unfold LinkedCache.evict
  split_ifs with hempty
  · rfl
  · -- Without keys there is no entry in the ring.
    rw [not_not] at hempty
    have hnodes : nodes = [] := by
      rw [List.eq_nil_iff_forall_not_mem]
      intro p hp
      have hsome := (h.allocated p).mpr (List.mem_cons_of_mem _ hp)
      obtain ⟨x, hx⟩ := Option.isSome_iff_exists.mp hsome
      have hlookup := (h.keys x.1 p).mpr ⟨hp, by rw [hx]; rfl⟩
      have hkey : x.1 ∈ c.keys.keys :=
        AList.mem_keys.mp (AList.lookup_isSome.mp (by rw [hlookup]; rfl))
      rw [hempty] at hkey
      cases hkey
    have hring := h.ring
    rw [hnodes] at hring
    obtain ⟨z, hz, hlinked⟩ := hring.exists_next List.mem_cons_self
    obtain rfl := List.mem_singleton.mp hz
    have hnext : c.next .lru = some .lru := hlinked.1
    simp [hnext]

theorem get (h : Represents c nodes l) (key : κ) : ∃ c' nodes',
    c.get key = some ((l.get key).1, c') ∧ Represents c' nodes' (l.get key).2 := by
  have hwf : (l.get key).2.WF := h.wf.get
  unfold LinkedCache.get LRUCache.get at *
  rw [h.capacity]
  split_ifs with hcap
  · exact ⟨c, nodes, rfl, h⟩
  · rw [if_neg hcap] at hwf
    cases hlookup : c.keys.lookup key with
    | none =>
      rw [h.find_of_lookup hlookup]
      exact ⟨c, nodes, rfl, h⟩
    | some p =>
      obtain ⟨value, xs, ys, es, es', hs⟩ := h.exists_splits hlookup
      have hothers := h.allocated_others hs
      rw [(LRUCache.find_unlink_of_eq h.wf.nodup hs.entries).1] at hwf ⊢
      dsimp only at hwf ⊢
      obtain ⟨e, he, hvalue⟩ := hs.exists_memory
      obtain ⟨c₁, h₁, hsame₁, hring₁⟩ := unlinkNext_eq (h.ring_split hs) hothers
      obtain ⟨c₂, h₂, hsame, hring₂⟩ := h.linkLast_of_unlinked hs hsame₁ hring₁
      refine ⟨c₂, _, ?_, h.moved hs hsame.keys hsame.capacity hring₂ ?_ hwf⟩
      · simp only [he, h₁, h₂, hvalue, Option.bind_eq_bind, Option.bind_some, Option.pure_def]
      · rw [hsame.content, ← hs.content, Function.update_eq_self]

theorem remove (h : Represents c nodes l) (key : κ) : ∃ c' nodes',
    c.remove key = some ((l.remove key).1, c') ∧ Represents c' nodes' (l.remove key).2 := by
  have hwf : (l.remove key).2.WF := h.wf.remove
  unfold LinkedCache.remove LRUCache.remove at *
  rw [h.capacity]
  split_ifs with hcap
  · exact ⟨c, nodes, rfl, h⟩
  · rw [if_neg hcap] at hwf
    cases hlookup : c.keys.lookup key with
    | none =>
      rw [h.find_of_lookup hlookup]
      exact ⟨c, nodes, rfl, h⟩
    | some p =>
      obtain ⟨value, xs, ys, es, es', hs⟩ := h.exists_splits hlookup
      have hothers := h.allocated_others hs
      rw [(LRUCache.find_unlink_of_eq h.wf.nodup hs.entries).1] at hwf ⊢
      dsimp only at hwf ⊢
      obtain ⟨e, he, hvalue⟩ := hs.exists_memory
      obtain ⟨c₁, h₁, hsame₁, hring₁⟩ := unlinkPrev_eq (h.ring_split hs) hothers
      obtain ⟨addr, rfl⟩ := h.onHeap p hs.mem_nodes
      obtain ⟨c₂, h₂, hkeys₂, hcapacity₂, hring₂, hcontent₂⟩ := free_eq hring₁
        (fun hmem => h.ne_of_mem hs _ hmem rfl) (by rw [hsame₁.content, hs.content]; rfl)
      refine ⟨{ c₂ with keys := c₂.keys.erase key }, xs ++ ys, ?_, ?_⟩
      · simp only [he, h₁, h₂, hvalue, Option.bind_eq_bind, Option.bind_some, Option.pure_def]
      · refine h.removed hs ?_ ?_ ?_ ?_ hwf
        · exact congrArg (AList.erase key) (hkeys₂.trans hsame₁.keys)
        · exact hcapacity₂.trans hsame₁.capacity
        · exact hring₂
        · exact hcontent₂.trans (by rw [hsame₁.content])

variable [Inhabited κ] [Inhabited ν]

theorem create (capacity : ℕ) :
    Represents (LinkedCache.create capacity : LinkedCache κ ν) [] (LRUCache.create capacity) := by
  refine ⟨rfl, Ring.IsRing.nil ?_ ?_, ?_, by simp, rfl, ?_, LRUCache.wf_create capacity⟩
  · simp [links, next, LinkedCache.create]
  · simp [links, prev, LinkedCache.create]
  · intro p
    by_cases hp : p = .lru
    · simp [content, LinkedCache.create, hp]
    · simp [content, LinkedCache.create, hp]
  · intro key p
    simp [LinkedCache.create]

/-- `Put` of a key that is there. -/
theorem put_of_lookup (h : Represents c nodes l) (hcap : l.capacity ≠ 0)
    (hlookup : c.keys.lookup key = some p) (value : ν) (addr : ℕ) : ∃ c' nodes',
      c.put key value addr = some c' ∧ Represents c' nodes' (l.put key value) := by
  obtain ⟨old, xs, ys, es, es', hs⟩ := h.exists_splits hlookup
  have hothers := h.allocated_others hs
  have hfind := (LRUCache.find_unlink_of_eq h.wf.nodup hs.entries).1
  have hput : l.put key value = (l.unlink key).link key value := by
    simp only [LRUCache.put, if_neg hcap, hfind]
  have hwf : (l.put key value).WF := h.wf.put
  rw [hput] at hwf ⊢
  obtain ⟨c₁, h₁, hsame₁, hring₁⟩ := unlinkPrev_eq (h.ring_split hs) hothers
  obtain ⟨c₂, h₂, hsame, hring₂⟩ := h.linkLast_of_unlinked hs hsame₁ hring₁
  obtain ⟨c₃, h₃, hkeys₃, hcapacity₃, hlinks₃, hcontent₃⟩ :=
    assign_content (f := fun entry => { entry with value }) (g := fun x => (x.1, value))
      (c := c₂) (p := p) (by rw [hsame.content, hs.content]; rfl) (fun _ => rfl) (fun _ => rfl)
      fun _ => rfl
  refine ⟨c₃, _, ?_, h.moved hs (hkeys₃.trans hsame.keys) (hcapacity₃.trans hsame.capacity)
    (hlinks₃ ▸ hring₂) ?_ hwf⟩
  · simp only [LinkedCache.put, h.capacity, if_neg hcap, hlookup, h₁, h₂, h₃, Option.bind_eq_bind,
      Option.bind_some]
  · rw [hcontent₃, hsame.content, hs.content]
    rfl

/-- `Put` of a new key. -/
theorem put_of_new (h : Represents c nodes l) (hcap : l.capacity ≠ 0)
    (hlookup : c.keys.lookup key = none) (value : ν) {addr : ℕ}
    (hfresh : c.memory (.node addr) = none) : ∃ c' nodes',
      c.put key value addr = some c' ∧ Represents c' nodes' (l.put key value) := by
  have hfind := h.find_of_lookup hlookup
  have hput : l.put key value = l.link key value :=
    LRUCache.put_of_new hcap hfind
  have hwf : (l.put key value).WF := h.wf.put
  rw [hput] at hwf ⊢
  have hp : EntryPtr.node addr ∉ EntryPtr.lru :: nodes := by
    intro hmem
    have hsome := (h.allocated (.node addr)).mpr hmem
    rw [isSome_content, hfresh] at hsome
    cases hsome
  obtain ⟨hring₁, hcontent₁⟩ := new_eq h.ring hp
  have hself₁ : (c.new addr).content (.node addr) = some default := by
    rw [hcontent₁, Function.update_self]
  obtain ⟨c₂, h₂, hsame₂, hring₂⟩ := linkLast_eq hring₁ hp (by
    intro x hx
    by_cases hxp : x = .node addr
    · rw [hxp, hself₁]
      rfl
    · rw [hcontent₁, Function.update_of_ne hxp, h.allocated]
      exact (List.mem_cons.mp hx).resolve_left hxp)
  -- The new entry gets its key, and then its value.
  obtain ⟨c₃, h₃, hkeys₃, hcapacity₃, hlinks₃, hcontent₃⟩ :=
    assign_content (f := fun entry => { entry with key }) (g := fun x => (key, x.2))
      (c := c₂) (p := .node addr) (by rw [hsame₂.content, hself₁]; rfl) (fun _ => rfl)
      (fun _ => rfl) fun _ => rfl
  obtain ⟨c₄, h₄, hkeys₄, hcapacity₄, hlinks₄, hcontent₄⟩ :=
    assign_content (f := fun entry => { entry with value }) (g := fun x => (x.1, value))
      (c := c₃) (p := .node addr)
      (by rw [hcontent₃, Function.update_self, hsame₂.content, hself₁]; rfl) (fun _ => rfl)
      (fun _ => rfl) fun _ => rfl
  refine ⟨{ c₄ with keys := c₄.keys.insert key (.node addr) }, nodes ++ [.node addr], ?_, ?_⟩
  · simp only [LinkedCache.put, h.capacity, if_neg hcap, hlookup, h.evict, ite_self, h₂, h₃, h₄,
      Option.bind_eq_bind, Option.bind_some, Option.pure_def]
  · refine h.added (fun hmem => hp (List.mem_cons_of_mem _ hmem)) hlookup ?_ ?_ ?_ ?_ hwf
    · exact congrArg (AList.insert key (.node addr)) (hkeys₄.trans (hkeys₃.trans hsame₂.keys))
    · exact hcapacity₄.trans (hcapacity₃.trans hsame₂.capacity)
    · have hlinks := hlinks₄.trans hlinks₃
      rw [← hlinks] at hring₂
      exact hring₂
    · refine hcontent₄.trans ?_
      rw [hcontent₃, Function.update_self, hsame₂.content, hself₁, hcontent₁]
      simp

/-- `Put`, if `New` returns an address that is not in use. -/
theorem put (h : Represents c nodes l) (key : κ) (value : ν) {addr : ℕ}
    (hfresh : c.memory (.node addr) = none) : ∃ c' nodes',
      c.put key value addr = some c' ∧ Represents c' nodes' (l.put key value) := by
  by_cases hcap : l.capacity = 0
  · refine ⟨c, nodes, ?_, ?_⟩
    · rw [LinkedCache.put, h.capacity, if_pos hcap]
    · rw [LRUCache.put, if_pos hcap]
      exact h
  · cases hlookup : c.keys.lookup key with
    | none => exact h.put_of_new hcap hlookup value hfresh
    | some p => exact h.put_of_lookup hcap hlookup value addr

end Represents

end LinkedCache
end PedroDB
