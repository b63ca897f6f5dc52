import PedroDB.FileManager
import PedroDB.Iterator

/-!
# Data files as lists of records

The bytes of a data file are its records laid end to end, followed by zeros. This file
says what both readers of data files make of such bytes.

## Main definitions

* `packAll` — the bytes of a list of records
* `DataFile.Holds` — a data file holds exactly these records

## Main results

* `DataFile.Holds.unPackAll_eq` — the loop of `CreateFile` finds every record
* `DataFile.Holds.scan_eq` — the loop over a `RecordIterator` finds every record but one
  that ends exactly at the end of the file
* `rebuildLog_eq` — the log rebuilt by `CreateFile` lists every record
* `decode_packLog` — what an index file with that log lists
-/

namespace PedroDB

open Framing

/-- The bytes of records laid end to end. -/
def packAll [Platform] (es : List Entry) : Bytes := es.flatMap Entry.pack

/-- The length of records laid end to end. -/
abbrev totalSize (es : List Entry) : ℕ := total Entry.size es

/-- A record stands at an offset of a list of records. -/
abbrev RecordAt (es : List Entry) (offset : ℕ) (e : Entry) : Prop := At Entry.size es offset e

variable [Platform] {es es' : List Entry} {e e' : Entry} {o : ℕ}

section Sizes

omit [Platform]

@[simp] theorem totalSize_cons : totalSize (e :: es) = e.size + totalSize es := total_cons

@[simp] theorem totalSize_append : totalSize (es ++ es') = totalSize es + totalSize es' :=
  total_append

theorem totalSize_concat : totalSize (es ++ [e]) = totalSize es + e.size := by simp

theorem RecordAt.unique (h : RecordAt es o e) (h' : RecordAt es o e') : e = e' :=
  At.unique (fun _ _ => Entry.size_pos) h h'

theorem RecordAt.end_le (h : RecordAt es o e) : o + e.size ≤ totalSize es := At.end_le h

/-- A record that starts at the end of a prefix or behind it is the next one, or stands
behind the next one. -/
theorem RecordAt.next_cases {x : Entry} (h : RecordAt (es ++ e :: es') o x)
    (hle : totalSize es ≤ o) : o = totalSize es ∧ x = e ∨ totalSize es + e.size ≤ o := by
  obtain ⟨p, ⟨pre, post, heq, rfl⟩, hp⟩ := At.of_total_le h hle x.size_pos
  have ho : o = totalSize es + totalSize pre := hp
  cases pre with
  | nil => exact Or.inl ⟨ho, (List.cons.inj heq).1.symm⟩
  | cons y pre =>
    obtain ⟨rfl, -⟩ := List.cons.inj heq
    rw [totalSize_cons] at ho
    exact Or.inr (by omega)

/-- There are no more records than bytes. -/
theorem length_le_total : es.length ≤ totalSize es := by
  induction es with
  | nil => exact Nat.zero_le _
  | cons e es ih =>
    have := e.size_pos
    rw [List.length_cons, totalSize_cons]
    omega

end Sizes

theorem length_packAll : (packAll es).length = totalSize es := by
  induction es with
  | nil => rfl
  | cons e es ih =>
    rw [totalSize_cons, ← ih, ← e.length_pack]
    simp [packAll]

theorem packAll_append : packAll (es ++ es') = packAll es ++ packAll es' :=
  List.flatMap_append

theorem packAll_singleton : packAll [e] = e.pack := by
  simp [packAll]

/-- A record is read back from where it stands. -/
theorem RecordAt.read_eq (h : RecordAt es o e) :
    Padded.read (Padded.ofList 0 (packAll es)) o e.size = e.pack := by
  obtain ⟨pre, post, rfl, rfl⟩ := h
  have hbytes : packAll (pre ++ e :: post) = packAll pre ++ e.pack ++ packAll post := by
    simp [packAll]
  rw [hbytes]
  exact Padded.read_ofList_middle length_packAll e.length_pack

/-- The data file holds exactly the records `es`. -/
structure DataFile.Holds (f : DataFile) (es : List Entry) : Prop where
  data : f.data = Padded.ofList 0 (packAll es)
  fits : totalSize es ≤ kMaxFileBytes
  storable : ∀ e ∈ es, e.Storable

namespace DataFile.Holds

variable {f : DataFile}

theorem read_eq (h : f.Holds es) (hat : RecordAt es o e) :
    Padded.read f.data o e.size = e.pack := by
  rw [h.data, hat.read_eq]

/-- Packing a record behind the last one. -/
theorem addRecord (h : f.Holds es) (hwrite : f.writeIndex = totalSize es) (hs : e.Storable)
    (hfits : f.writeIndex + e.size ≤ kMaxFileBytes) (n : ℕ) :
    ({ f with data := Padded.write f.data f.writeIndex e.pack, writeIndex := n } :
      DataFile).Holds (es ++ [e]) where
  data := by
    have hlen : f.writeIndex = (packAll es).length := by rw [length_packAll, hwrite]
    rw [h.data, hlen, Padded.write_ofList_length, packAll_append, packAll_singleton]
  fits := by
    rw [totalSize_concat, ← hwrite]
    exact hfits
  storable := by
    intro x hx
    rcases List.mem_append.mp hx with hx | hx
    · exact h.storable x hx
    · exact List.mem_singleton.mp hx ▸ hs

/-- Behind the records there are zeros. -/
theorem data_end (h : f.Holds es) : f.data (totalSize es) = 0 := by
  rw [h.data, Padded.ofList_of_length_le length_packAll.le]

/-- `UnPack` decodes the record that stands at the read position. -/
theorem unPack_eq (h : f.Holds es) (hat : RecordAt es o e) :
    Entry.unPack ((FileManager.readableBuffer f).retrieve o) =
      (some e, (FileManager.readableBuffer f).retrieve (o + e.size)) := by
  have hend := hat.end_le.trans h.fits
  have hpeek : ((FileManager.readableBuffer f).retrieve o).peek e.size = e.pack := by
    simpa [ReadBuffer.peek, FileManager.readableBuffer] using h.read_eq hat
  rw [(h.storable e hat.mem).unPack_eq _ _ hpeek, ReadBuffer.retrieve_retrieve]
  · simp only [ReadBuffer.InBounds, FileManager.readableBuffer, ReadBuffer.retrieve_readIndex,
      ReadBuffer.retrieve_capacity]
    omega
  · simpa [FileManager.readableBuffer] using hend

/-- `UnPack` decodes nothing behind the records. -/
theorem unPack_end (h : f.Holds es) :
    Entry.unPack ((FileManager.readableBuffer f).retrieve (totalSize es)) =
      (none, (FileManager.readableBuffer f).retrieve (totalSize es)) := by
  apply Entry.unPack_of_header
  apply Header.unPack_of_kEmpty
  simpa [FileManager.readableBuffer] using h.data_end

/-- A loop of `UnPack` finds every record, and stops behind the last one. -/
theorem collect_eq {rounds : ℕ} (h : f.Holds es) (hrounds : es.length ≤ rounds) :
    ReadBuffer.collect Entry.unPack rounds (FileManager.readableBuffer f) = es := by
  rw [ReadBuffer.collect_frames hrounds fun o e hat => h.unPack_eq hat,
    ReadBuffer.collect_of_none (by rw [h.unPack_end]), List.append_nil]

/-- The loop of `CreateFile` finds every record. -/
theorem unPackAll_eq (h : f.Holds es) : FileManager.unPackAll f = es :=
  h.collect_eq (length_le_total.trans h.fits)

end DataFile.Holds

/-! ### The loop over a `RecordIterator` -/

/-- What a `RecordIterator` yields of a file with these records. -/
def readableFrames (o : ℕ) (es : List Entry) : List (ℕ × Entry) :=
  (framesFrom Entry.size o es).filter fun r => r.1 + r.2.size < kMaxFileBytes

/-- The iterator stands in front of offset `o`, and a header can still be fetched there
or the shared buffer is used up. -/
structure RecordIterator.Ready (it : RecordIterator) (buffer : ReadBuffer) (o : ℕ) : Prop where
  size : it.size = kMaxFileBytes
  index : it.index = o
  readIndex : it.readIndex = o
  buffer : buffer.readableBytes = 0 ∨ o + Header.sizeOf < kMaxFileBytes

omit [Platform] in
theorem RecordIterator.ready_create (buffer : ReadBuffer) :
    (RecordIterator.create kMaxFileBytes).Ready buffer 0 :=
  ⟨rfl, rfl, rfl, Or.inr (by decide)⟩

omit [Platform] in
/-- `Seek` leaves nothing in the buffer. -/
theorem RecordIterator.ready_seek (o : ℕ) :
    ((RecordIterator.create kMaxFileBytes).seek o).1.Ready ReadBuffer.empty o := by
  refine ⟨rfl, rfl, rfl, Or.inl ?_⟩
  exact (ReadBuffer.ofBytes_inBounds []).readableBytes_eq

namespace DataFile.Holds

variable {f : DataFile} {it : RecordIterator} {buffer : ReadBuffer}

/-- `Valid` in front of a record that ends before the end of the file. -/
theorem valid_of_record (h : f.Holds es) (hready : it.Ready buffer o) (hat : RecordAt es o e)
    (hend : o + e.size < kMaxFileBytes) :
    ∃ rest, it.valid f.data buffer =
        (true, { it with readIndex := o + e.size, entry := e }, rest) ∧
      ({ it with index := o + e.size, readIndex := o + e.size, entry := e }).Ready rest
        (o + e.size) := by
  obtain ⟨rest, hvalid, hzero⟩ := RecordIterator.valid_of_record buffer
    (h.storable e hat.mem) (h.read_eq hat) (hready.size ▸ hend) hready.index hready.readIndex
  exact ⟨rest, hvalid, hready.size, rfl, rfl, Or.inl hzero⟩

/-- `Valid` in front of a record that ends exactly at the end of the file. -/
theorem valid_of_fills (h : f.Holds es) (hready : it.Ready buffer o) (hat : RecordAt es o e)
    (hend : o + e.size = kMaxFileBytes) : (it.valid f.data buffer).1 = false :=
  RecordIterator.valid_of_fills (h.storable e hat.mem) (h.read_eq hat) (hready.size ▸ hend)
    hready.index hready.readIndex (hready.size ▸ hready.buffer)

/-- `Valid` behind the last record. -/
theorem valid_of_end (h : f.Holds es) (hready : it.Ready buffer (totalSize es)) :
    (it.valid f.data buffer).1 = false :=
  RecordIterator.valid_of_kEmpty h.data_end hready.index hready.readIndex
    (hready.size ▸ hready.buffer)

omit [Platform] in
theorem next_eq (hs : e.Storable) (hindex : it.index = o) (n : ℕ) :
    ({ it with readIndex := n, entry := e } : RecordIterator).next =
      (e, { it with index := o + e.size, readIndex := n, entry := e }) := by
  simp only [RecordIterator.next, hs.sizeOf_eq, hindex]

private theorem scan_from (h : f.Holds es) {pre post : List Entry} {fuel : ℕ}
    (hes : es = pre ++ post) (hready : it.Ready buffer (totalSize pre))
    (hfuel : post.length ≤ fuel) :
    (RecordIterator.scan f.data fuel it buffer).1 = readableFrames (totalSize pre) post := by
  induction post generalizing pre it buffer fuel with
  | nil =>
    have hend : es = pre := by simpa using hes
    have hfalse := h.valid_of_end (hend.symm ▸ hready)
    cases fuel with
    | zero => rfl
    | succ fuel =>
      obtain ⟨it', buffer', hv⟩ : ∃ a b, it.valid f.data buffer = (false, a, b) :=
        ⟨_, _, Prod.ext hfalse rfl⟩
      simp [RecordIterator.scan, hv, readableFrames, framesFrom]
  | cons e post ih =>
    -- The fuel covers the records that are left.
    obtain ⟨fuel, rfl⟩ : ∃ n, fuel = n + 1 := ⟨fuel - 1, by simp at hfuel; omega⟩
    have hat : RecordAt es (totalSize pre) e := hes ▸ at_total pre e post
    have hle := hat.end_le.trans h.fits
    rcases Nat.lt_or_ge (totalSize pre + e.size) kMaxFileBytes with hlt | hge
    · obtain ⟨rest, hvalid, hready'⟩ := h.valid_of_record hready hat hlt
      have hnext := next_eq (h.storable e hat.mem) hready.index (totalSize pre + e.size)
      have htotal : totalSize (pre ++ [e]) = totalSize pre + e.size := by simp
      have hes' : es = (pre ++ [e]) ++ post := by simp [hes]
      have hrest := ih hes' (htotal.symm ▸ hready') (by simpa using hfuel)
      have hoff : RecordIterator.getOffset
          { it with readIndex := totalSize pre + e.size, entry := e } = totalSize pre := by
        simp only [RecordIterator.getOffset, hready.index]
        rw [kMaxFileBytes] at hle
        exact u32_of_lt (by omega)
      rw [htotal] at hrest
      simp only [RecordIterator.scan, hvalid, hnext, hoff, hrest, readableFrames, framesFrom]
      simp [hlt]
    · -- The record fills the file, and nothing can stand behind it.
      have hfalse := h.valid_of_fills hready hat (by omega)
      obtain ⟨it', buffer', hv⟩ : ∃ a b, it.valid f.data buffer = (false, a, b) :=
        ⟨_, _, Prod.ext hfalse rfl⟩
      have hpost : post = [] := by
        have htotal := h.fits
        rw [hes, totalSize_append, totalSize_cons] at htotal
        have : post.length ≤ totalSize post := length_le_total
        exact List.length_eq_zero_iff.mp (by omega)
      subst hpost
      simp only [RecordIterator.scan, hv, readableFrames, framesFrom]
      simp [hge]

/-- A loop over a `RecordIterator` finds every record but one that ends exactly at the end of
the file, and stops. -/
theorem scan_rounds {rounds : ℕ} (h : f.Holds es) (buffer : ReadBuffer)
    (hrounds : es.length ≤ rounds) :
    (RecordIterator.scan f.data rounds (RecordIterator.create kMaxFileBytes) buffer).1 =
      readableFrames 0 es :=
  h.scan_from (List.nil_append es).symm (RecordIterator.ready_create buffer) hrounds

/-- The loop over a `RecordIterator` finds every record but one that ends exactly at the
end of the file. -/
theorem scan_eq (h : f.Holds es) (buffer : ReadBuffer) :
    (RecordIterator.scan f.data kMaxFileBytes (RecordIterator.create kMaxFileBytes) buffer).1 =
      readableFrames 0 es :=
  h.scan_rounds buffer (length_le_total.trans h.fits)

end DataFile.Holds

omit [Platform] in
/-- Unless the last record fills the file, a `RecordIterator` yields every record. -/
theorem readableFrames_eq (hend : totalSize es < kMaxFileBytes) :
    readableFrames 0 es = frames Entry.size es := by
  refine List.filter_eq_self.mpr ?_
  rintro ⟨o, e⟩ hmem
  have := RecordAt.end_le (mem_frames_iff.mp hmem)
  simp only [decide_eq_true_eq]
  omega

/-! ### Index logs -/

/-- The index entries of records, the first one at `o`. -/
def logFrom (o : ℕ) (es : List Entry) : List IndexEntry :=
  (framesFrom Entry.size o es).map fun r => IndexEntry.ofRecord r.1 r.2

/-- The index log of a file with these records. -/
def packLog (es : List Entry) : Bytes := (logFrom 0 es).flatMap IndexEntry.pack

theorem rebuildLog_eq (hs : ∀ e ∈ es, e.Storable) (hfits : o + totalSize es ≤ kMaxFileBytes) :
    FileManager.rebuildLog o es =
      ((logFrom o es).flatMap IndexEntry.pack, o + totalSize es) := by
  induction es generalizing o with
  | nil => rfl
  | cons e es ih =>
    have hsize := (hs e List.mem_cons_self).sizeOf_eq
    rw [totalSize_cons] at hfits
    have hoff : u32 (o + e.sizeOf) = o + e.size := by
      rw [hsize]
      rw [kMaxFileBytes] at hfits
      exact u32_of_lt (by omega)
    have htail := ih (o := o + e.size) (fun x hx => hs x (List.mem_cons_of_mem _ hx)) (by omega)
    simp only [FileManager.rebuildLog, hoff, htail, logFrom, framesFrom, totalSize_cons]
    simp [Nat.add_assoc]

omit [Platform] in
theorem storable_ofRecord (hs : e.Storable) (ho : o ≤ kMaxFileBytes) :
    (IndexEntry.ofRecord o e).Storable where
  key := hs.key
  offset := by
    change o < _
    rw [kMaxFileBytes] at ho
    omega
  len := by
    change e.sizeOf < _
    have := hs.size
    rw [kMaxFileBytes] at this
    rw [hs.sizeOf_eq]
    omega
  type := hs.type_cast.1

/-- What an index file with the log of these records lists. -/
theorem decode_packLog (hs : ∀ e ∈ es, e.Storable) (hfits : totalSize es ≤ kMaxFileBytes)
    (extra : ℕ) :
    ∃ rest, IndexEntry.decode (packLog es) extra = logFrom 0 es ++ rest ∧
      (∀ e ∈ rest, e.type = .kEmpty) ∧ (extra = 0 → rest = []) := by
  refine IndexEntry.decode_flatMap_pack ?_
  intro x hx
  obtain ⟨⟨o, e⟩, hmem, rfl⟩ := List.mem_map.mp hx
  obtain ⟨o', hat, rfl⟩ := mem_framesFrom_iff.mp hmem
  have := RecordAt.end_le hat
  exact storable_ofRecord (hs e hat.mem) (by omega)

/-- Only a file without records has an empty index log. -/
theorem packLog_eq_nil_iff : packLog es = [] ↔ es = [] := by
  cases es with
  | nil => exact iff_of_true rfl rfl
  | cons e es => simp [packLog, logFrom, framesFrom, IndexEntry.pack]

theorem packLog_concat :
    packLog (es ++ [e]) = packLog es ++ (IndexEntry.ofRecord (totalSize es) e).pack := by
  simp [packLog, logFrom, framesFrom_append, framesFrom]

end PedroDB
