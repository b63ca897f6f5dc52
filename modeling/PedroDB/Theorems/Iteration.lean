import PedroDB.WriteRuns

/-!
# Iteration

For every index entry the iterator opens the file of the record and reads it from the
front, so it yields the first record of the file in place of the one that the entry points
at; and it hands out the value as it is stored.

## Main definitions

* `DBImpl.leading` — the record at the front of a file, if an iterator can read it
* `Session.InFront` — at the front of the file of every live record there is a record of
  the same key that stores the value itself

## Main results

* `DBImpl.Sound.iterateFrom_eq` — what iteration yields
* `Session.iterate_complete` — iteration is complete and correct in such states
* `Session.exists_iterate_not_complete` — with two keys in one file it is not
-/

namespace PedroDB

open Framing Transition

section

variable [Platform] {opt : Options}

namespace DBImpl

variable {db : DBImpl} {L : Log} {key : Key} {dir : Dir} {e : Entry} {id : ℕ}

/-- The record at the front of the file, if it validates and does not fill the file. -/
def leading (id : ℕ) (db : DBImpl) : Option Entry :=
  (FileManager.unPackAll (db.fileManager.dataFiles id)).head?.filter fun e =>
    e.size < kMaxFileBytes && e.validate

namespace Sound

theorem leading_eq (h : db.Sound L) :
    db.leading id = (L id).head?.filter fun e => e.size < kMaxFileBytes && e.validate := by
  rw [leading, (h.holds.files id).unPackAll_eq]

/-- One round of the loop, on any set of open files. -/
theorem iterateStep_eq (h : db.Sound L) {fm : FileManager} (hreg : fm.Registered)
    (hmetadata : fm.metadata = db.fileManager.metadata)
    (hdata : fm.dataFiles = db.fileManager.dataFiles)
    (hmem : dir.loc.id ∈ db.fileManager.metadata.files) (buffer : ReadBuffer) :
    ∃ fm' rest, iterateStep dir fm buffer = (db.leading dir.loc.id, fm', rest) ∧
      fm'.Registered ∧ fm'.metadata = db.fileManager.metadata ∧
      fm'.dataFiles = db.fileManager.dataFiles := by
  obtain ⟨o, hopen, hreg'⟩ := hreg.acquireDataFile_eq dir.loc.id
  rw [if_pos (hmetadata ▸ hmem)] at hopen
  have hfile : (fm.dataFiles dir.loc.id).Holds (L dir.loc.id) := hdata ▸ h.holds.files dir.loc.id
  have hready := RecordIterator.ready_create buffer
  rw [h.leading_eq]
  simp only [iterateStep, hopen]
  -- A file without records yields nothing.
  rcases hL : L dir.loc.id with _ | ⟨e, es⟩
  · have hempty : totalSize (L dir.loc.id) = 0 := by rw [hL]; rfl
    have hfalse := hfile.valid_of_end (hempty ▸ hready)
    obtain ⟨it, rest, hvalid⟩ : ∃ it rest, (RecordIterator.create kMaxFileBytes).valid
        (fm.dataFiles dir.loc.id).data buffer = (false, it, rest) :=
      ⟨_, _, Prod.ext hfalse rfl⟩
    exact ⟨_, rest, by simp [hvalid], hreg', hmetadata, hdata⟩
  · have hat : RecordAt (L dir.loc.id) 0 e := by
      rw [hL]
      exact at_total [] e es
    -- The first record, if it validates.
    rcases Nat.lt_or_ge e.size kMaxFileBytes with hlt | hge
    · obtain ⟨rest, hvalid, -⟩ := hfile.valid_of_record hready hat (by rwa [Nat.zero_add])
      refine ⟨_, rest, ?_, hreg', hmetadata, hdata⟩
      cases hvalidate : e.validate <;>
        simp [hvalid, RecordIterator.next, hvalidate, hlt, Option.filter_some]
    · -- It fills its file, and `Valid()` does not see it.
      have hend : 0 + e.size = kMaxFileBytes :=
        Nat.le_antisymm (hat.end_le.trans hfile.fits) (by rwa [Nat.zero_add])
      have hfalse := hfile.valid_of_fills hready hat hend
      obtain ⟨it, rest, hvalid⟩ : ∃ it rest, (RecordIterator.create kMaxFileBytes).valid
          (fm.dataFiles dir.loc.id).data buffer = (false, it, rest) :=
        ⟨_, _, Prod.ext hfalse rfl⟩
      exact ⟨_, rest, by simp [hvalid, hge.not_gt, Option.filter_some], hreg', hmetadata, hdata⟩

private theorem iterateFrom_open (h : db.Sound L) {dirs : List Dir} {fm : FileManager}
    (hreg : fm.Registered) (hmetadata : fm.metadata = db.fileManager.metadata)
    (hdata : fm.dataFiles = db.fileManager.dataFiles)
    (hmem : ∀ dir ∈ dirs, dir.loc.id ∈ db.fileManager.metadata.files) (buffer : ReadBuffer) :
    iterateFrom dirs fm buffer = dirs.filterMap fun dir => db.leading dir.loc.id := by
  induction dirs generalizing fm buffer with
  | nil => rfl
  | cons dir dirs ih =>
    obtain ⟨fm', rest, hround, hreg', hmetadata', hdata'⟩ :=
      h.iterateStep_eq hreg hmetadata hdata (hmem dir List.mem_cons_self) buffer
    have htail := ih hreg' hmetadata' hdata' (fun d hd => hmem d (List.mem_cons_of_mem _ hd)) rest
    rcases hl : db.leading dir.loc.id with _ | e <;>
      rw [hl] at hround <;> simp [iterateFrom, hround, htail, hl]

/-- Iteration over index entries yields the records at the front of their files. -/
theorem iterateFrom_eq (h : db.Sound L) {dirs : List Dir}
    (hmem : ∀ dir ∈ dirs, dir.loc.id ∈ db.fileManager.metadata.files) (buffer : ReadBuffer) :
    iterateFrom dirs db.fileManager buffer =
      dirs.filterMap fun dir => db.leading dir.loc.id :=
  h.iterateFrom_open h.registered rfl rfl hmem buffer

end Sound
end DBImpl

namespace Session

variable {name : Bytes} {as : List Action} {s : Session} {L : Log}

/-- At the front of the file of every live record there is a record of the same key that
stores the user's value, and it does not fill the file. -/
def InFront (opt : Options) (s : Session) : Prop :=
  ∀ x ∈ s.db.indices.entries, ∃ first ∈ s.db.leading x.2.loc.id, first.key = x.1 ∧
    ∃ r ∈ frames Entry.size (FileManager.unPackAll (s.db.fileManager.dataFiles x.2.loc.id)),
      r.1 = x.2.loc.offset ∧ DBImpl.userValue opt r.2.value = some first.value

instance (s : Session) : Decidable (InFront opt s) := by
  unfold InFront
  exact inferInstance

/-- In a state reached by a careful run, with the live records in front, iteration in any
order ends and yields each key of the index once, with the value that `Get` returns. -/
theorem iterate_complete (hcareful : Guarded opt (Careful opt) name as)
    (hreach : Reaches opt name as s) (hfront : InFront opt s)
    {entries : List (Sigma fun _ : Key => Dir)} (horder : entries.Perm s.db.indices.entries)
    (buffer : ReadBuffer) :
    ((DBImpl.iterateFrom (entries.map Sigma.snd) s.db.fileManager buffer).map Entry.key).Perm
        s.db.indices.keys ∧
      ∀ e ∈ DBImpl.iterateFrom (entries.map Sigma.snd) s.db.fileManager buffer,
        ∀ use_read_cache, SettledRead opt s (.get use_read_cache e.key) →
          s.db.hiddenRead opt use_read_cache e.key = false → ∃ db rest,
            s.db.handleGet opt use_read_cache e.key s.buffer =
              some (⟨.kOk, some e.value⟩, db, rest) := by
  obtain ⟨L, h, hcache⟩ := exists_inv_cacheOk hcareful hreach
  have hfind : ∀ x ∈ entries, s.db.find x.1 = some x.2 := fun x hx =>
    AList.mem_lookup_iff.mpr (horder.mem_iff.mp hx)
  replace hfront : ∀ x ∈ entries, _ := fun x hx => hfront x (horder.mem_iff.mp hx)
  -- Each index entry yields the first record of its file.
  have hyield : DBImpl.iterateFrom (entries.map Sigma.snd) s.db.fileManager buffer =
      entries.filterMap fun x => s.db.leading x.2.loc.id := by
    rw [h.sound.iterateFrom_eq, List.filterMap_map]
    · rfl
    · intro dir hdir
      obtain ⟨x, hx, rfl⟩ := List.mem_map.mp hdir
      exact h.sound.kept x.1 x.2 (hfind x hx)
  rw [hyield]
  -- The keys that are yielded are those of the index.
  constructor
  · have hkeys : (entries.filterMap fun x => s.db.leading x.2.loc.id).map Entry.key =
        entries.map Sigma.fst := by
      rw [List.map_filterMap, ← List.filterMap_eq_map]
      refine List.filterMap_congr fun x hx => ?_
      obtain ⟨first, hleading, hkey, -⟩ := hfront x hx
      rw [hleading, Option.map_some, hkey]
      rfl
    rw [hkeys]
    exact horder.map Sigma.fst
  · -- The value that is yielded is the one that `Get` returns.
    intro e he use_read_cache hread hseen
    obtain ⟨x, hx, hleading⟩ := List.mem_filterMap.mp he
    obtain ⟨first, hfirst, hkey, ⟨offset, live⟩, hlive, rfl, hvalue⟩ := hfront x hx
    obtain rfl : first = e := Option.some_inj.mp (hfirst.symm.trans hleading)
    rw [hkey] at hread hseen ⊢
    obtain ⟨w, hloc, hget⟩ := h.handleGet_live hcache (hfind x hx)
    rw [(h.sound.holds.files _).unPackAll_eq] at hlive
    obtain rfl := RecordAt.unique (mem_frames_iff.mp hlive) hloc
    have hw : some w.value = some first.value :=
      (DBImpl.userValue_stored w.value).symm.trans hvalue
    obtain ⟨db, rest, heq⟩ := hget use_read_cache hread
    exact ⟨db, rest, by rw [heq, hseen, hw]; rfl⟩

end Session

end

namespace Session

open scoped Reference

/-- Two keys with their records in two files, each at the front of its file. -/
theorem iterate_complete_sealing : ∃ as s, Reaches Reference.options [] as s ∧
    s.db.indices.keys = [[108], [107]] ∧
    (s.db.find [107]).map Dir.loc = some ⟨1, 0⟩ ∧ (s.db.find [108]).map Dir.loc = some ⟨2, 0⟩ ∧
    ((s.db.iterate s.buffer).map Entry.key).Perm s.db.indices.keys ∧
      ∀ e ∈ s.db.iterate s.buffer, ∀ use_read_cache, ∃ db rest,
        s.db.handleGet Reference.options use_read_cache e.key s.buffer =
          some (⟨.kOk, some e.value⟩, db, rest) := by
  obtain ⟨rest, hlen⟩ := exists_value (kMaxFileBytes - 17)
  obtain ⟨s₀, s, L, hs₀, hdb, hwrote, hs⟩ :=
    exists_wrote [] (placed_sealing hlen)
  have hindex := hwrote.index
  rw [hdb] at hindex
  have hcareful : Guarded Reference.options (Careful Reference.options) [] _ := fun s₁ hs₁ =>
    Option.some_inj.mp (hs₀.symm.trans hs₁) ▸ hwrote.careful
  have hreach : Reaches Reference.options [] _ s := ⟨s₀, hs₀, hwrote.run⟩
  -- Each of the two records is alone in its file.
  have hsingle : ∀ id w, L id = [DBImpl.entryOf Reference.options w] →
      ∃ first ∈ s.db.leading id, first.key = w.key ∧ ∃ r ∈ frames Entry.size
        (FileManager.unPackAll (s.db.fileManager.dataFiles id)), r.1 = 0 ∧
          DBImpl.userValue Reference.options r.2.value = some first.value := by
    intro id w hL
    have hlt := hs.room id
    rw [hL, totalSize_cons] at hlt
    have hlt : (DBImpl.entryOf Reference.options w).size < kMaxFileBytes := hlt
    rw [hs.inv.sound.leading_eq, (hs.inv.sound.holds.files id).unPackAll_eq, hL, List.head?_cons,
      Option.filter_some, DBImpl.entryOf_validate, Bool.and_true, decide_eq_true hlt, if_pos rfl]
    exact ⟨_, rfl, rfl, _, List.mem_singleton_self _, rfl, rfl⟩
  have hfront : InFront Reference.options s := by
    intro x hx
    rw [hindex] at hx
    rcases List.mem_cons.mp hx with rfl | hx
    · exact hsingle 2 (.put [108] [1]) (by rw [hwrote.log]; rfl)
    · obtain rfl := List.mem_singleton.mp hx
      exact hsingle 1 (.put [107] (1 :: rest)) (by rw [hwrote.log]; rfl)
  obtain ⟨hkeys, hvalues⟩ := iterate_complete hcareful hreach hfront (List.Perm.refl _) s.buffer
  refine ⟨_, s, hreach, by rw [hindex]; rfl, by rw [hindex]; rfl, by rw [hindex]; rfl, hkeys, ?_⟩
  intro e he use_read_cache
  refine hvalues e he use_read_cache ?_ (hs.hiddenRead_eq_false _ _)
  -- The first file is sealed, and the second one is read directly.
  have hfm := hwrote.files
  rw [hdb] at hfm
  have hactive : s.db.fileManager.activeFileId = 2 := by
    rw [hfm]
    rfl
  have hmax : s.db.maxFile = 2 := by
    rw [hindex]
    rfl
  rw [SettledRead]
  split
  · trivial
  · next dir hfind =>
    by_cases hid : dir.loc.id = 2
    · exact Or.inl (by simp [DBImpl.directlyRead, hid, hmax])
    · exact Or.inr (Or.inl (hactive ▸ hid))

/-- Of two keys in one file, iteration yields the first one twice. -/
theorem exists_iterate_not_complete : ¬ ∀ opt name as s, Reaches opt name as s → s.Quiescent →
    ((s.db.iterate s.buffer).map Entry.key).Perm s.db.indices.keys := by
  intro hall
  obtain ⟨s₀, hs₀, -⟩ := exists_fresh Reference.options []
  have hrun : (((fresh Reference.options []).bind fun s =>
      [Action.write (.put [107] [118]), .write (.put [108] [119])].foldlM
        (step Reference.options) s).map fun s =>
          decide (s.Quiescent ∧ ¬ ((s.db.iterate s.buffer).map Entry.key).Perm s.db.indices.keys)) =
            some true := by decide +kernel
  rw [hs₀] at hrun
  obtain ⟨s, hs, htrue⟩ := Option.map_eq_some_iff.mp hrun
  obtain ⟨hidle, hnot⟩ := of_decide_eq_true htrue
  exact hnot (hall Reference.options [] _ s ⟨s₀, hs₀, hs⟩ hidle)

end Session
end PedroDB
