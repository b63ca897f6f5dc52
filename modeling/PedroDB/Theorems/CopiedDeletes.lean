import PedroDB.Theorems.ConcurrentCompaction

/-!
# Deletes during a compaction

If a key is deleted while `Compact(id)` copies its record, the copy may be behind the
tombstone, and the recovery finds it there.

## Main definitions

* `Concurrent.Undeleted` — no `Delete` has appended its tombstone in front of the copy
* `Concurrent.Outranked` — the copy is in front of every tombstone to come

## Main results

* `Concurrent.tombstone_of_run` — then a key that is absent has a tombstone behind the copy
* `Concurrent.exists_key_back` — a deleted key is back after a restart
-/

namespace PedroDB

open Transition

namespace Concurrent

section

variable [Platform] {opt : Options} {s s' : Concurrent} {a : Action} {L L' : Log}

/-- The key is in the index, and no `Delete` of it is between `Append` and the index update. -/
def Undeleted (s : Concurrent) (key : Key) : Prop :=
  s.db.find key ≠ none ∧ ∀ t w loc, s.threads t = .index w loc → w.key = key → w.value ≠ []

/-- The only file that is removed is `id`. -/
def RemovesOnly (id : ℕ) (s : Concurrent) : Action → Prop
  | .block t _ =>
    match s.threads t with
    | .compact _ (.finish j) => j = id
    | _ => True
  | _ => True

instance (id : ℕ) (s : Concurrent) : (a : Action) → Decidable (s.RemovesOnly id a)
  | .block t _ =>
    match h : s.threads t with
    | .compact _ (.finish j) => decidable_of_iff (j = id) (by simp only [RemovesOnly, h])
    | .compact _ .idle | .compact _ (.start _) | .compact _ (.mark _) | .compact _ (.scan _ _)
    | .compact _ (.check _ _ _ _) | .compact _ (.append _ _ _) | .compact _ (.install _ _ _ _)
    | .idle | .append _ | .index _ _ => .isTrue (by simp only [RemovesOnly, h])
  | .write _ _ | .append _ _ | .index _ | .poll | .start _ _ | .compact _ | .fail _ | .readonly
  | .task _ => .isTrue trivial

/-- A copy of a record of the key is at this location, and every tombstone that erases the key
from the index is behind it. -/
structure Outranked (s : Concurrent) (L : Log) (key : Key) (copy : Location) : Prop where
  located : ∃ next, Located L copy next
  found : s.db.find key ≠ none ∨
    ∃ loc e, Located L loc e ∧ e.key = key ∧ e.type = .kDelete ∧ copy < loc
  pending : ∀ t w loc, s.threads t = .index w loc → w.key = key → w.value = [] → copy < loc
  registered : ∀ j, copy.id < j → j ≤ s.db.fileManager.activeFileId →
    j ∈ s.db.fileManager.metadata.files

/-- A record that is appended leaves the copy outranked. -/
theorem Outranked.extend {key : Key} {copy loc : Location} {e : Entry} (h : s.Outranked L key copy)
    (hextends : s.db.fileManager.Extends L e loc s'.db.fileManager)
    (hfind : s'.db.find = s.db.find)
    (hpending : ∀ t w l, s'.threads t = .index w l → w.key = key → w.value = [] → copy < l) :
    s'.Outranked (L.add loc.id e) key copy where
  located := by
    obtain ⟨next, hnext⟩ := h.located
    exact ⟨next, hnext.add _ _⟩
  found := by
    rw [hfind]
    refine h.found.imp_right ?_
    rintro ⟨l, x, hx, hrest⟩
    exact ⟨l, x, hx.add _ _, hrest⟩
  pending := hpending
  registered := by
    intro j hlt hle
    rw [hextends.active] at hle
    rcases Nat.lt_or_ge s.db.fileManager.activeFileId j with hnew | hold
    · exact hextends.registered j hnew hle
    · exact hextends.files (h.registered j hlt hold)

/-- One step, when no file but `id` is removed. -/
theorem Outranked.step {key : Key} {copy : Location} {id : ℕ} (h : s.Outranked L key copy)
    (hid : id ≤ copy.id) (hinv : Inv opt s L) (honly : s.RemovesOnly id a)
    (hchange : Change opt s L a s' L') : s'.Outranked L' key copy := by
  cases hchange with
  | @appended t opens w loc fm ht hextends =>
    refine h.extend hextends rfl fun u w' l hu hkey hvalue => ?_
    by_cases hut : u = t
    · -- The tombstone is appended after the copy.
      subst hut
      rw [setThread_self] at hu
      obtain ⟨-, rfl⟩ := Thread.index.inj hu
      obtain ⟨next, hnext⟩ := h.located
      exact hextends.lt hinv.stores hnext
    · rw [setThread_of_ne _ hut] at hu
      exact h.pending u w' l hu hkey hvalue
  | @indexed t w loc ht =>
    have hloc : Located L loc (DBImpl.entryOf opt w) := hinv.carries ht
    refine ⟨h.located, ?_, fun u w' l hu => h.pending u w' l (index_of_setThread (by simp) hu), ?_⟩
    · rw [setThread_db, DBImpl.find_updateIndex]
      split_ifs with hkey hvalue
      · exact Or.inr ⟨loc, _, hloc, hkey.symm, by rw [DBImpl.entryOf_type, if_pos hvalue],
          h.pending t w loc ht hkey.symm hvalue⟩
      · exact Or.inl (by simp)
      · exact h.found
    · rw [setThread_db, DBImpl.updateIndex_fileManager]
      exact h.registered
  | @copied t id opens queue it next loc fm ht hextends =>
    exact h.extend hextends rfl fun u w' l hu => h.pending u w' l (index_of_setThread (by simp) hu)
  | @installed t id opens queue it next loc ht =>
    refine ⟨h.located, h.found.imp_left fun hfound => ?_,
      fun u w' l hu => h.pending u w' l (index_of_setThread (by simp) hu), ?_⟩
    · rw [setThread_db, DBImpl.find_compactInstall]
      split_ifs
      · simp
      · exact hfound
    · rw [setThread_db, DBImpl.compactInstall_fileManager]
      exact h.registered
  | @removed t j opens queue ht =>
    simp only [RemovesOnly, ht] at honly
    refine ⟨h.located, h.found,
      fun u w' l hu => h.pending u w' l (index_of_setThread (by simp) hu), fun k hlt hle => ?_⟩
    rw [setThread_db, DBImpl.compactFinish, FileManager.removeFile_activeFileId] at hle
    rw [setThread_db, DBImpl.compactFinish, FileManager.removeFile_files, Finset.mem_erase]
    exact ⟨by omega, h.registered k hlt hle⟩
  | quiet hfind hstores hfiles hactive hlinked hthreads =>
    refine ⟨h.located, by rw [hfind]; exact h.found, fun u w' l hu => ?_, ?_⟩
    · rcases hthreads u with ⟨hsame, -⟩ | ⟨hquiet, -⟩
      · exact h.pending u w' l (hsame ▸ hu)
      · rw [hu] at hquiet
        exact hquiet.elim
    · rw [hfiles, hactive]
      exact h.registered

/-- The copy is appended, and from then on outranked by every tombstone. -/
theorem Outranked.copied {t id : ℕ} {opens : OpenData} {queue : List ℕ} {it : RecordIterator}
    {next : Entry} {copy : Location} (hinv : Inv opt s L)
    (ht : s.threads t = .compact queue (.append id it next)) (hundeleted : s.Undeleted next.key)
    (hchange : Change opt s L (.block t opens) s' L')
    (ht' : s'.threads t = .compact queue (.install id it next copy)) :
    s'.Outranked L' next.key copy ∧ id ≤ copy.id := by
  obtain ⟨offset, hreads⟩ := hinv.carries ht
  cases hchange with
  | copied hcopied hextends =>
    rw [setThread_self] at ht'
    obtain ⟨rfl, hinstall⟩ := Thread.compact.inj ht'
    obtain ⟨rfl, rfl, rfl, rfl⟩ := Compaction.install.inj hinstall
    refine ⟨⟨⟨_, hextends.located.mpr (Or.inr ⟨rfl, rfl⟩)⟩, Or.inl hundeleted.1,
      fun u w l hu hkey hvalue => ?_, fun j hlt hle => ?_⟩, ?_⟩
    · exact absurd hvalue (hundeleted.2 u w l (index_of_setThread (by simp) hu) hkey)
    · rw [setThread_db, hextends.active] at hle
      exact absurd hle (not_le.mpr hlt)
    · exact (hinv.stores.id_le_active hreads.located).trans hextends.le_id
  | installed hinstall => simp [ht] at hinstall
  | removed hfinish => simp [ht] at hfinish
  | quiet hfind hstores hfiles hactive hlinked hthreads =>
    rcases hthreads t with ⟨hsame, -⟩ | ⟨hquiet, -⟩
    · rw [hsame, ht] at ht'
      simp at ht'
    · rw [ht'] at hquiet
      exact hquiet.elim

/-- Any number of threads write and compact. If a copy is appended while its key is in the
index and no `Delete` of it waits for its index update, then whenever the key is absent there
is a tombstone behind the copy, provided that no file but the one compacted is removed. -/
theorem tombstone_of_run {db : DBImpl} {before after : List Action} {s₁ s₂ s₃ : Concurrent}
    {t id : ℕ} {opens : OpenData} {queue : List ℕ} {it : RecordIterator} {next : Entry}
    {copy : Location} (hsound : db.Sound L) (hwritten : L.Written opt)
    (hbefore : Run (step opt) (start db) before s₁)
    (hwithin : Meets (step opt) (Within opt) (start db) (before ++ [.block t opens]))
    (ht : s₁.threads t = .compact queue (.append id it next))
    (hundeleted : s₁.Undeleted next.key)
    (hcopy : step opt s₁ (.block t opens) = some s₂)
    (ht₂ : s₂.threads t = .compact queue (.install id it next copy))
    (hafter : Run (step opt) s₂ after s₃)
    (hmeets : Meets (step opt) (fun s a => s.Within opt a ∧ s.RemovesOnly id a) s₂ after)
    (habsent : s₃.db.find next.key = none)
    (hfile : copy.id ∈ s₃.db.fileManager.metadata.files) :
    ∃ loc e, loc.id ∈ s₃.db.fileManager.metadata.files ∧
      Located s₃.db.fileManager.log loc e ∧ e.key = next.key ∧ e.type = .kDelete ∧ copy < loc := by
  obtain ⟨hwithin, hwithin₁⟩ := (meets_concat hbefore).mp hwithin
  obtain ⟨L₁, hinv₁⟩ := (Inv.start hsound hwritten).run hbefore hwithin
  obtain ⟨L₂, hchange⟩ := hinv₁.change hwithin₁ hcopy
  obtain ⟨houtranked, hid⟩ := Outranked.copied hinv₁ ht hundeleted hchange ht₂
  obtain ⟨L₃, hinv, h⟩ := hafter.invariant
    (P := fun s => ∃ L, Inv opt s L ∧ s.Outranked L next.key copy) hmeets
    ⟨L₂, hinv₁.step hchange, houtranked⟩ fun s a s' ⟨L, hinv, h⟩ ⟨hw, honly⟩ hstep => by
      obtain ⟨L', hchange⟩ := hinv.change hw hstep
      exact ⟨L', hinv.step hchange, h.step hid hinv honly hchange⟩
  obtain ⟨loc, e, hloc, hkey, htype, hlt⟩ := h.found.resolve_left (not_not.mpr habsent)
  refine ⟨loc, e, ?_, hinv.stores.log_eq ▸ hloc, hkey, htype, hlt⟩
  rcases Location.lt_iff.mp hlt with hlater | ⟨hsame, -⟩
  · exact h.registered loc.id hlater (hinv.stores.id_le_active hloc)
  · exact hsame ▸ hfile

end

open scoped Reference

/-- The thread is in front of the copy of a record of this key in file 1. -/
def copies (key : Key) : Thread → Bool
  | .compact _ (.append id _ next) => id = 1 ∧ next.key = key
  | _ => false

/-- The thread goes on with its copy at this location. -/
def copiedTo (copy : Location) : Thread → Thread
  | .compact queue (.append id it next) => .compact queue (.install id it next copy)
  | th => th

/-- A record is copied, and its key is deleted afterwards. -/
theorem tombstone_of_run_delete : ∃ s,
    Run (step Reference.options) (start (Session.newDb Reference.options []))
      (putTwice ++ copying ++ .block 1 .sound :: write 0 (.delete [107])) s ∧
    ∃ loc e, loc.id ∈ s.db.fileManager.metadata.files ∧
      Located s.db.fileManager.log loc e ∧ e.key = [107] ∧ e.type = .kDelete ∧
      (⟨1, 32⟩ : Location) < loc := by
  have hrun : ((putTwice ++ copying).foldlM (step Reference.options)
      (start (Session.newDb Reference.options []))).bind (fun s₁ =>
        (step Reference.options s₁ (.block 1 .sound)).bind fun s₂ =>
          ((write 0 (.delete [107])).foldlM (step Reference.options) s₂).map fun s₃ =>
            decide (s₁.threads 0 = .idle ∧ copies [107] (s₁.threads 1) = true ∧
              s₁.db.find [107] ≠ none ∧ s₂.threads 1 = copiedTo ⟨1, 32⟩ (s₁.threads 1) ∧
              s₃.db.find [107] = none ∧ 1 ∈ s₃.db.fileManager.metadata.files ∧
              check (step Reference.options)
                (fun s a => s.Within Reference.options a ∧ s.RemovesOnly 1 a) s₂
                (write 0 (.delete [107])) = true)) = some true := by decide +kernel
  obtain ⟨s₁, hbefore, hrun⟩ := Option.bind_eq_some_iff.mp hrun
  obtain ⟨s₂, hcopy, hrun⟩ := Option.bind_eq_some_iff.mp hrun
  obtain ⟨s₃, hafter, htrue⟩ := Option.map_eq_some_iff.mp hrun
  obtain ⟨hidle, hcopies, hfound, ht₂, habsent, hfile, hcheck⟩ := of_decide_eq_true htrue
  refine ⟨s₃, run_append.mpr ⟨s₁, hbefore, run_cons.mpr ⟨s₂, hcopy, hafter⟩⟩, ?_⟩
  unfold copies at hcopies
  split at hcopies
  · next queue id it next ht =>
    rw [decide_eq_true_iff] at hcopies
    obtain ⟨rfl, hkey⟩ := hcopies
    have hundeleted : s₁.Undeleted next.key := by
      refine ⟨hkey ▸ hfound, fun t w loc hindex => ?_⟩
      by_cases h₀ : t = 0
      · rw [h₀, hidle] at hindex
        cases hindex
      by_cases h₁ : t = 1
      · rw [h₁, ht] at hindex
        cases hindex
      rw [threads_of_run hbefore (by
        simp [putTwice, copying, write, Action.thread, Ne.symm h₀, Ne.symm h₁])] at hindex
      cases hindex
    rw [ht] at ht₂
    rw [← hkey]
    exact tombstone_of_run Session.newDb_sound (fun _ _ he => absurd he List.not_mem_nil) hbefore
      (meets_of_check (by decide +kernel)) ht hundeleted hcopy ht₂ hafter (meets_of_check hcheck)
      (hkey ▸ habsent) hfile
  · cases hcopies

/-- The key is deleted: `Append`, the copy of its record, the index update of the `Delete`, and
the rest of the compaction. -/
def deleteUndone : List Action :=
  [.write 0 (.delete [107]), .append 0 .sound, .block 1 .sound, .index 0] ++
    List.replicate 4 (.block 1 .sound)

/-- All calls have returned, and the key is absent; after a restart it has its old value. -/
theorem exists_key_back : ∃ db s db' rest, sealedFile = some db ∧
    Run (step Reference.options) (start db) (copying ++ deleteUndone) s ∧
    s.threads 0 = .idle ∧ s.threads 1 = .idle ∧ s.db.find [107] = none ∧
    DBImpl.openDb Reference.options .sound [] s.db.fileManager.disk ReadBuffer.empty =
      some (.kOk, db', rest) ∧
    db'.valueOf [107] = some [2] := by
  have hrun : (sealedFile.bind fun db =>
      ((copying ++ deleteUndone).foldlM (step Reference.options) (start db)).map fun s =>
        decide (s.threads 0 = .idle ∧ s.threads 1 = .idle ∧ s.db.find [107] = none ∧
          ((DBImpl.openDb Reference.options .sound [] s.db.fileManager.disk
            ReadBuffer.empty).map fun r => (r.1, r.2.1.valueOf [107])) =
              some (.kOk, some [2]))) = some true := by
    decide +kernel
  obtain ⟨db, hdb, hrun⟩ := Option.bind_eq_some_iff.mp hrun
  obtain ⟨s, hs, htrue⟩ := Option.map_eq_some_iff.mp hrun
  obtain ⟨hput, hcompact, habsent, hopen⟩ := of_decide_eq_true htrue
  obtain ⟨⟨status, db', rest⟩, hopen, heq⟩ := Option.map_eq_some_iff.mp hopen
  obtain ⟨rfl, hvalue⟩ := Prod.mk.inj heq
  exact ⟨db, s, db', rest, hdb, hs, hput, hcompact, habsent, hopen, hvalue⟩

end Concurrent

end PedroDB
