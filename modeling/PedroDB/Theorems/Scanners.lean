import PedroDB.Records
import PedroDB.Reference

/-!
# Two readers of a data file

`CreateFile` walks over the mapped file with `Entry::UnPack`, `Recovery` and `Compact` over
what a `RecordIterator` fetches. They disagree about a record that ends exactly at the end of
the file: `fetch` takes the last byte of a file for one too many.

## Main definitions

* `createFrames` — the offsets that `CreateFile` gives to the records it finds
* `DataFile.ReadBack` — both readers yield the records of the file, and stop

## Main results

* `readBack_iff` — they do exactly if the file is not full
-/

namespace PedroDB

open Framing

section

variable [Platform] {es : List Entry} {e : Entry} {o : ℕ} {buffer : ReadBuffer}

omit [Platform] in
/-- The records that the loop of `CreateFile` finds, each with its `offset`. -/
def createFrames : ℕ → List Entry → List (ℕ × Entry)
  | _, [] => []
  | offset, e :: es => (offset, e) :: createFrames (u32 (offset + e.sizeOf)) es

/-- The log that is rebuilt lists these records at these offsets. -/
theorem rebuildLog_createFrames (o : ℕ) (es : List Entry) :
    (FileManager.rebuildLog o es).1 =
      (createFrames o es).flatMap fun r => (IndexEntry.ofRecord r.1 r.2).pack := by
  induction es generalizing o with
  | nil => rfl
  | cons e es ih =>
    rw [FileManager.rebuildLog, createFrames, List.flatMap_cons, ← ih]

omit [Platform] in
theorem createFrames_eq (hs : ∀ e ∈ es, e.Storable) (hfits : o + totalSize es ≤ kMaxFileBytes) :
    createFrames o es = framesFrom Entry.size o es := by
  induction es generalizing o with
  | nil => rfl
  | cons e es ih =>
    rw [totalSize_cons] at hfits
    have hoffset : u32 (o + e.sizeOf) = o + e.size := by
      rw [(hs e List.mem_cons_self).sizeOf_eq]
      rw [kMaxFileBytes] at hfits
      exact u32_of_lt (by omega)
    rw [createFrames, framesFrom, hoffset,
      ih (fun x hx => hs x (List.mem_cons_of_mem _ hx)) (by omega)]

/-- Both readers of the file yield these records at their offsets, and then stop: longer loops
find no more. The iterator starts with any shared buffer. -/
structure DataFile.ReadBack (f : DataFile) (es : List Entry) (buffer : ReadBuffer) : Prop where
  unPack : ∀ rounds, es.length < rounds →
    createFrames 0
      (ReadBuffer.collect Entry.unPack rounds (FileManager.readableBuffer f)) =
        frames Entry.size es
  iterator : ∀ rounds, es.length < rounds →
    (RecordIterator.scan f.data rounds (RecordIterator.create kMaxFileBytes) buffer).1 =
      frames Entry.size es

omit [Platform] in
/-- An iterator finds all records exactly if there is room behind them. -/
theorem readableFrames_eq_iff (hfits : totalSize es ≤ kMaxFileBytes) :
    readableFrames 0 es = frames Entry.size es ↔ totalSize es < kMaxFileBytes := by
  constructor
  · intro h
    cases es using List.reverseRecOn with
    | nil => exact Nat.zero_lt_of_ne_zero (by decide)
    | append_singleton pre e =>
      have hmem : (totalSize pre, e) ∈ readableFrames 0 (pre ++ [e]) := by
        rw [h]
        exact mem_frames_iff.mpr (at_total pre e [])
      rw [totalSize_concat]
      exact of_decide_eq_true (List.mem_filter.mp hmem).2
  · exact readableFrames_eq

/-- The readers of a file that holds these records. -/
theorem DataFile.Holds.readBack_iff {f : DataFile} (h : f.Holds es) (buffer : ReadBuffer) :
    f.ReadBack es buffer ↔ totalSize es < kMaxFileBytes := by
  have hunPack : ∀ rounds, es.length < rounds →
      createFrames 0 (ReadBuffer.collect Entry.unPack rounds (FileManager.readableBuffer f)) =
        frames Entry.size es := by
    intro rounds hrounds
    rw [h.collect_eq hrounds.le]
    exact createFrames_eq h.storable ((Nat.zero_add _).le.trans h.fits)
  constructor
  · intro hread
    apply (readableFrames_eq_iff h.fits).mp
    rw [← h.scan_rounds buffer (Nat.le_succ es.length)]
    exact hread.iterator (es.length + 1) (Nat.lt_succ_self _)
  · intro hroom
    refine ⟨hunPack, fun rounds hrounds => ?_⟩
    rw [h.scan_rounds buffer hrounds.le]
    exact readableFrames_eq hroom

/-- A data file that was filled with these records, from its front. -/
def DataFile.ofRecords (es : List Entry) : DataFile :=
  { data := Padded.ofList 0 (packAll es), writeIndex := totalSize es, linked := true }

theorem DataFile.ofRecords_holds
    (hs : ∀ e ∈ es, (e.type = .kSet ∨ e.type = .kDelete) ∧ e.key.length ≤ 255)
    (hfits : totalSize es ≤ kMaxFileBytes) : (DataFile.ofRecords es).Holds es where
  data := rfl
  fits := hfits
  storable := by
    intro e he
    obtain ⟨pre, post, rfl⟩ := List.append_of_mem he
    rw [totalSize_append, totalSize_cons] at hfits
    exact ⟨(hs e he).1, (hs e he).2, by omega⟩

/-- The two readers of a data file agree about its records exactly if these do not fill it. -/
theorem readBack_iff_not_full
    (hs : ∀ e ∈ es, (e.type = .kSet ∨ e.type = .kDelete) ∧ e.key.length ≤ 255)
    (hfits : totalSize es ≤ kMaxFileBytes) (buffer : ReadBuffer) :
    (DataFile.ofRecords es).ReadBack es buffer ↔ totalSize es ≠ kMaxFileBytes := by
  rw [(DataFile.ofRecords_holds hs hfits).readBack_iff buffer]
  exact lt_iff_le_and_ne.trans (and_iff_right hfits)

end

open scoped Reference

theorem readBack_iff_not_full_two :
    (DataFile.ofRecords [⟨0, .kSet, [107], [1], 0⟩, ⟨0, .kDelete, [107], [], 0⟩]).ReadBack
      [⟨0, .kSet, [107], [1], 0⟩, ⟨0, .kDelete, [107], [], 0⟩] ReadBuffer.empty :=
  (readBack_iff_not_full (by decide) (by decide) ReadBuffer.empty).mpr (by decide)

/-- A record that fills its file is not found by the iterator. -/
theorem exists_not_readBack : ∃ e : Entry, e.Storable ∧ e.size = kMaxFileBytes ∧
    ¬ (DataFile.ofRecords [e]).ReadBack [e] ReadBuffer.empty := by
  obtain ⟨n, hn⟩ : ∃ n, Header.sizeOf + n = kMaxFileBytes := ⟨kMaxFileBytes - 14, rfl⟩
  obtain ⟨e, he, hkey, htype⟩ : ∃ e : Entry, e.size = kMaxFileBytes ∧ e.key = [] ∧
      e.type = .kSet := by
    refine ⟨⟨0, .kSet, [], List.replicate n 0, 0⟩, ?_, rfl, rfl⟩
    rw [← hn, Entry.size, List.length_replicate]
    rfl
  have hs : e.Storable := ⟨Or.inl htype, by simp [hkey], he.le⟩
  have htotal : totalSize [e] = kMaxFileBytes := by simpa using he
  have hholds : (DataFile.ofRecords [e]).Holds [e] :=
    ⟨rfl, htotal.le, fun x hx => List.mem_singleton.mp hx ▸ hs⟩
  refine ⟨e, hs, he, fun hread => ?_⟩
  exact ((hholds.readBack_iff ReadBuffer.empty).mp hread).ne htotal

end PedroDB
