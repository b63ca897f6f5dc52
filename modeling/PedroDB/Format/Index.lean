import PedroDB.Format.Record

/-!
# The index format

A sealed data file has an index file that lists its records without their values.

## Main definitions

* `IndexEntry` — `index::Entry`
* `IndexEntry.unPackAll` — the loop of `IndexIterator`
* `IndexEntry.ofRecord` — the entry that `Append` and `CreateFile` log for a record

## Main results

* `IndexEntry.decode_flatMap_pack` — a packed list is read back, followed only by entries of
  type `kEmpty`
-/

namespace PedroDB

/-- `index::Entry` -/
structure IndexEntry where
  key : Bytes
  type : RecordType
  offset : ℕ
  len : ℕ
  deriving DecidableEq

namespace IndexEntry

/-- `index::Entry::SizeOf(key_size)` -/
def sizeOfKey (key_size : ℕ) : ℕ := 10 + key_size

/-- The entry logged for record `e` at `offset`. -/
def ofRecord (offset : ℕ) (e : Entry) : IndexEntry :=
  { key := e.key, type := e.type, offset, len := e.sizeOf }

variable [Platform]

/-- `index::Entry::Pack`, the bytes it appends. -/
def pack (e : IndexEntry) : Bytes :=
  UInt8.ofNat e.key.length :: e.type.toByte :: (Platform.putU32 (UInt32.ofNat e.offset) ++
    Platform.putU32 (UInt32.ofNat e.len)) ++ e.key

/-- `index::Entry::UnPack` -/
def unPack (b : ReadBuffer) : Option IndexEntry × ReadBuffer :=
  if b.readableBytes < 1 then (none, b)
  else
    let key_size := ((b.peek 1).headD 0).toNat
    if b.readableBytes < sizeOfKey key_size then (none, b)
    else
      (some { type := RecordType.ofByte (((b.retrieve 1).peek 1).headD 0)
              offset := (Platform.getU32 ((b.retrieve 2).peek 4)).toNat
              len := (Platform.getU32 ((b.retrieve 6).peek 4)).toNat
              key := (b.retrieve 10).peek key_size },
        b.retrieve (sizeOfKey key_size))

/-- A buffer that holds these bytes and counts `extra` bytes behind them as read. -/
def fileBuffer (bytes : Bytes) (extra : ℕ) : ReadBuffer :=
  { data := Padded.ofList 0 bytes, readIndex := 0, capacity := bytes.length + extra }

/-- The entries that a loop of `UnPack` decodes from these bytes and `extra` more. -/
def decode (bytes : Bytes) (extra : ℕ) : List IndexEntry :=
  ReadBuffer.collect unPack (bytes.length + extra) (fileBuffer bytes extra)

/-- The entries that `while (iter.Valid()) iter.Next()` yields on an index file: an
`IndexIterator` takes all that `EnsureWritable` made writable for read. -/
def unPackAll (bytes : Bytes) : List IndexEntry := decode bytes (Platform.slack bytes.length)

/-! ### Packed entries are read back -/

/-- What the fields of an index entry can represent. -/
structure Storable (e : IndexEntry) : Prop where
  key : e.key.length ≤ 255
  offset : e.offset < 2 ^ 32
  len : e.len < 2 ^ 32
  type : RecordType.ofByte e.type.toByte = e.type

/-- The length of the encoding. -/
def size (e : IndexEntry) : ℕ := sizeOfKey e.key.length

variable {e : IndexEntry} {es : List IndexEntry} {b : ReadBuffer} {extra : ℕ}

theorem length_pack : e.pack.length = e.size := by
  simp only [pack, size, sizeOfKey, List.length_cons, List.length_append, Platform.length_putU32]

/-- A packed entry is read back from where it was packed. -/
theorem Storable.unPack_eq (h : e.Storable) (hroom : b.readIndex + e.size ≤ b.capacity)
    (hpeek : b.peek e.size = e.pack) : unPack b = (some e, b.retrieve e.size) := by
  -- The fields, in the order in which `UnPack` reads them.
  have hpack : e.pack = [UInt8.ofNat e.key.length] ++ ([e.type.toByte] ++
      (Platform.putU32 (UInt32.ofNat e.offset) ++ (Platform.putU32 (UInt32.ofNat e.len) ++
        e.key))) := by
    simp [pack]
  have hsize : e.size = 1 + (1 + (4 + (4 + e.key.length))) := by
    simp only [size, sizeOfKey]
    omega
  rw [hpack, hsize] at hpeek
  rw [ReadBuffer.peek_add, ReadBuffer.peek_add, ReadBuffer.peek_add, ReadBuffer.peek_add] at hpeek
  simp only [ReadBuffer.retrieve_retrieve, Nat.reduceAdd] at hpeek
  obtain ⟨h1, hpeek⟩ := List.append_inj hpeek (by simp)
  obtain ⟨h2, hpeek⟩ := List.append_inj hpeek (by simp)
  obtain ⟨h3, hpeek⟩ := List.append_inj hpeek (by simp)
  obtain ⟨h4, h5⟩ := List.append_inj hpeek (by simp)
  -- No field loses bits.
  have hkey : (UInt8.ofNat e.key.length).toNat = e.key.length := by
    have := h.key
    rw [UInt8.toNat_ofNat']
    omega
  have hoffset : (UInt32.ofNat e.offset).toNat = e.offset := by
    rw [UInt32.toNat_ofNat']
    exact Nat.mod_eq_of_lt h.offset
  have hlen : (UInt32.ofNat e.len).toNat = e.len := by
    rw [UInt32.toNat_ofNat']
    exact Nat.mod_eq_of_lt h.len
  have hread : b.readableBytes = b.capacity - b.readIndex :=
    ReadBuffer.InBounds.readableBytes_eq (Nat.le_of_add_right_le hroom)
  have hsize' : sizeOfKey e.key.length = e.size := rfl
  rw [unPack, if_neg (by omega)]
  simp only [h1, List.headD_cons, hkey, hsize']
  rw [if_neg (by omega)]
  simp only [h2, h3, h4, h5, List.headD_cons, Platform.getU32_putU32, hoffset, hlen, h.type]

theorem of_unPack_eq_some {b' : ReadBuffer} (h : unPack b = (some e, b')) :
    e.type = RecordType.ofByte (((b.retrieve 1).peek 1).headD 0) ∧
      ∃ n, b' = b.retrieve n := by
  unfold unPack at h
  dsimp only at h
  split_ifs at h
  · simp at h
  · simp at h
  · obtain ⟨he, rfl⟩ := Prod.mk.inj h
    exact ⟨Option.some_inj.mp he ▸ rfl, _, rfl⟩

/-- On zeros only entries of type `kEmpty` are decoded. -/
theorem collect_zeros {fuel : ℕ} (hzero : ∀ i, b.readIndex ≤ i → b.data i = 0) :
    ∀ e ∈ ReadBuffer.collect unPack fuel b, e.type = .kEmpty := by
  induction fuel generalizing b with
  | zero => simp [ReadBuffer.collect]
  | succ fuel ih =>
    intro e he
    rw [ReadBuffer.collect] at he
    split at he
    · simp at he
    · next x b' hu =>
      obtain ⟨htype, n, rfl⟩ := of_unPack_eq_some hu
      rcases List.mem_cons.mp he with rfl | he
      · have hpeek : (b.retrieve 1).peek 1 = [0] := by
          simp [ReadBuffer.peek, Padded.read, hzero (b.readIndex + 1) (Nat.le_add_right _ _)]
        rw [htype, hpeek]
        rfl
      · exact ih (b := b.retrieve n) (fun i hi => hzero i (Nat.le_of_add_right_le hi)) e he

/-- Zeros in a file read as those behind it. -/
theorem decode_append_zeros {bytes : Bytes} {n : ℕ} :
    decode (bytes ++ List.replicate n 0) extra = decode bytes (n + extra) := by
  have hlength : (bytes ++ List.replicate n 0).length + extra = bytes.length + (n + extra) := by
    rw [List.length_append, List.length_replicate, Nat.add_assoc]
  rw [decode, decode, hlength]
  congr 1
  rw [fileBuffer, fileBuffer, Padded.ofList_append_replicate, hlength]

theorem length_flatMap_pack : (es.flatMap pack).length = Framing.total size es := by
  induction es with
  | nil => rfl
  | cons e es ih => simp [length_pack, ih]

/-- A packed list is read back, and whatever lies behind it reads as entries of type
`kEmpty`. -/
theorem decode_flatMap_pack (hs : ∀ e ∈ es, e.Storable) :
    ∃ rest, decode (es.flatMap pack) extra = es ++ rest ∧ (∀ e ∈ rest, e.type = .kEmpty) ∧
      (extra = 0 → rest = []) := by
  -- The fuel is enough, since each entry takes at least one byte.
  have hlen : es.length ≤ (es.flatMap pack).length + extra := by
    rw [length_flatMap_pack]
    clear hs
    induction es with
    | nil => exact Nat.zero_le _
    | cons e es ih =>
      simp only [List.length_cons, Framing.total_cons, size, sizeOfKey]
      omega
  -- Behind each entry stands the next one.
  have hstep : ∀ o e, Framing.At size es o e →
      unPack ((fileBuffer (es.flatMap pack) extra).retrieve o) =
        (some e, (fileBuffer (es.flatMap pack) extra).retrieve (o + size e)) := by
    intro o e hat
    have hend := hat.end_le
    obtain ⟨pre, post, rfl, rfl⟩ := hat
    rw [← ReadBuffer.retrieve_retrieve]
    refine (hs e (by simp)).unPack_eq ?_ ?_
    · simp only [fileBuffer, ReadBuffer.retrieve_readIndex, ReadBuffer.retrieve_capacity,
        length_flatMap_pack]
      omega
    · have hbytes : (pre ++ e :: post).flatMap pack =
          pre.flatMap pack ++ e.pack ++ post.flatMap pack := by
        simp
      simp only [ReadBuffer.peek, fileBuffer, ReadBuffer.retrieve_data,
        ReadBuffer.retrieve_readIndex, hbytes, Nat.zero_add]
      exact Padded.read_ofList_middle length_flatMap_pack length_pack
  refine ⟨_, ReadBuffer.collect_frames hlen hstep, ?_, ?_⟩
  · -- Zero bytes behind the last entry decode to empty entries.
    refine collect_zeros fun i hi => ?_
    simp only [fileBuffer, ReadBuffer.retrieve_readIndex, ReadBuffer.retrieve_data] at hi ⊢
    apply Padded.ofList_of_length_le
    rw [length_flatMap_pack]
    omega
  · -- Without them the decoder stops at the end.
    rintro rfl
    apply ReadBuffer.collect_of_none
    rw [unPack, if_pos]
    rw [← length_flatMap_pack, ReadBuffer.InBounds.readableBytes_eq]
    · simp [fileBuffer]
    · simp [ReadBuffer.InBounds, fileBuffer]

end IndexEntry
end PedroDB
