import PedroDB.Format.Record

/-!
# The record iterator

`RecordIterator` fetches the header and the body of a record in two pieces through a
buffer that all iterators of a thread share. The buffer is passed along explicitly.

## Main definitions

* `RecordIterator.fetch`, `valid`, `next`, `seek`
* `RecordIterator.scan` — the loop `while (it.Valid()) it.Next()`

## Main results

* `valid_of_record` — a record that ends before the end of the file is yielded
* `valid_of_fills` — a record that ends exactly at the end of the file is not
* `valid_of_kEmpty` — the iterator stops where no record starts
-/

namespace PedroDB

/-- `RecordIterator`, without the file it reads and the shared buffer. -/
structure RecordIterator where
  index : ℕ
  readIndex : ℕ
  entry : Entry
  size : ℕ
  deriving DecidableEq

namespace RecordIterator

/-- A default-constructed `entry_`. -/
def emptyEntry : Entry :=
  { checksum := 0, type := .kEmpty, key := [], value := [], timestamp := 0 }

/-- The constructor, for a file of `size` bytes. -/
def create (size : ℕ) : RecordIterator := { index := 0, readIndex := 0, entry := emptyEntry, size }

def fetch (it : RecordIterator) (file : Content) (buffer : ReadBuffer) (n : ℕ) :
    RecordIterator × ReadBuffer :=
  if it.size ≤ it.readIndex + n then (it, buffer)
  else
    ({ it with readIndex := it.readIndex + n },
      ReadBuffer.ofBytes (Padded.read file it.readIndex n))

/-- `Seek`, which also resets the shared buffer. -/
def seek (it : RecordIterator) (offset : ℕ) : RecordIterator × ReadBuffer :=
  ({ it with index := offset, readIndex := offset }, ReadBuffer.empty)

def getOffset (it : RecordIterator) : ℕ := u32 it.index

def next (it : RecordIterator) : Entry × RecordIterator :=
  (it.entry, { it with index := it.index + it.entry.sizeOf })

section

variable [Platform]

/-- The second half of `Valid`, once the header is decoded. -/
def validBody (it : RecordIterator) (file : Content) (buffer : ReadBuffer) (header : Header) :
    Bool × RecordIterator × ReadBuffer :=
  let body := u32 (header.key_size.toNat + header.value_size.toNat)
  let (it, buffer) := it.fetch file buffer body
  if buffer.readableBytes < body then (false, it, buffer)
  else
    let entry : Entry :=
      { checksum := header.checksum
        type := header.type
        timestamp := header.timestamp
        key := buffer.peek header.key_size.toNat
        value := (buffer.retrieve header.key_size.toNat).peek header.value_size.toNat }
    (true, { it with entry },
      (buffer.retrieve header.key_size.toNat).retrieve header.value_size.toNat)

def valid (it : RecordIterator) (file : Content) (buffer : ReadBuffer) :
    Bool × RecordIterator × ReadBuffer :=
  if it.size ≤ it.index then (false, it, buffer)
  else
    let (it, buffer) := it.fetch file buffer Header.sizeOf
    match Header.unPack buffer with
    | (none, buffer) => (false, it, buffer)
    | (some header, buffer) => it.validBody file buffer header

/-- The records that `while (it.Valid()) it.Next()` yields, each with `GetOffset()`
before `Next`, and the shared buffer afterwards. -/
def scan (file : Content) : ℕ → RecordIterator → ReadBuffer → List (ℕ × Entry) × ReadBuffer
  | 0, _, buffer => ([], buffer)
  | fuel + 1, it, buffer =>
    match it.valid file buffer with
    | (false, _, buffer) => ([], buffer)
    | (true, it, buffer) =>
      let (rest, buffer) := scan file fuel it.next.2 buffer
      ((it.getOffset, it.next.1) :: rest, buffer)

/-! ### What `Valid` answers, by what stands at the read position -/

variable {it : RecordIterator} {file : Content} {buffer : ReadBuffer} {e : Entry} {o n : ℕ}

omit [Platform] in
theorem fetch_of_lt (h : it.readIndex + n < it.size) :
    it.fetch file buffer n = ({ it with readIndex := it.readIndex + n },
      ReadBuffer.ofBytes (Padded.read file it.readIndex n)) := by
  rw [fetch, if_neg (by omega)]

omit [Platform] in
theorem fetch_index : (it.fetch file buffer n).1.index = it.index := by
  unfold fetch
  split_ifs
  · rfl
  · rfl

/-- Only `Next` moves on. -/
theorem valid_index (it : RecordIterator) (file : Content) (buffer : ReadBuffer) :
    (it.valid file buffer).2.1.index = it.index := by
  unfold valid
  split_ifs
  · rfl
  · dsimp only
    split
    · exact fetch_index
    · unfold validBody
      dsimp only
      split_ifs
      · exact fetch_index.trans fetch_index
      · exact fetch_index.trans fetch_index

omit [Platform] in
theorem fetch_of_le (h : it.size ≤ it.readIndex + n) :
    it.fetch file buffer n = (it, buffer) := by
  rw [fetch, if_pos h]

/-- The header of a record, fetched and decoded; nothing is left in the buffer. -/
theorem header_unPack_fetched (hs : e.Storable)
    (hpeek : Padded.read file o e.size = e.pack) :
    ∃ rest, Header.unPack (ReadBuffer.ofBytes (Padded.read file o Header.sizeOf)) =
      (some e.header, rest) ∧ rest.readableBytes = 0 := by
  have hb : (ReadBuffer.ofBytes (Padded.read file o Header.sizeOf)).InBounds :=
    ReadBuffer.ofBytes_inBounds _
  have hlen : (Padded.read file o Header.sizeOf).length = Header.sizeOf := Padded.length_read
  have hheader : Padded.read file o Header.sizeOf = e.header.pack :=
    (Entry.Storable.peek_parts
      (b := { data := file, readIndex := o, capacity := o + e.size }) hpeek).1
  refine ⟨_, hs.header_unPack hb ?_ ?_, ?_⟩
  · simp [ReadBuffer.ofBytes]
  · rw [← hheader]
    conv_lhs => rw [← hlen]
    exact ReadBuffer.peek_ofBytes _
  · rw [ReadBuffer.InBounds.readableBytes_eq (by simp [ReadBuffer.InBounds, ReadBuffer.ofBytes])]
    simp [ReadBuffer.ofBytes]

theorem valid_eq_validBody (buffer : ReadBuffer) (hs : e.Storable)
    (hpeek : Padded.read file o e.size = e.pack)
    (hend : o + Header.sizeOf < it.size) (hi : it.index = o) (hr : it.readIndex = o) :
    ∃ rest, it.valid file buffer =
      ({ it with readIndex := o + Header.sizeOf }).validBody file rest e.header ∧
        rest.readableBytes = 0 := by
  obtain ⟨rest, hrest, hzero⟩ := header_unPack_fetched hs hpeek
  refine ⟨rest, ?_, hzero⟩
  have hidx : ¬ it.size ≤ it.index := by omega
  rw [valid, if_neg hidx, fetch_of_lt (by omega), hr]
  simp only [hrest]

/-- A record that ends before the end of the file is yielded, and the iterator stands
behind it. -/
theorem valid_of_record (buffer : ReadBuffer) (hs : e.Storable)
    (hpeek : Padded.read file o e.size = e.pack)
    (hend : o + e.size < it.size) (hi : it.index = o) (hr : it.readIndex = o) :
    ∃ rest, it.valid file buffer =
      (true, { it with readIndex := o + e.size, entry := e }, rest) ∧ rest.readableBytes = 0 := by
  have hsize : e.size = Header.sizeOf + e.key.length + e.value.length := rfl
  obtain ⟨rest, hvalid, -⟩ := valid_eq_validBody buffer hs hpeek (by omega) hi hr
  -- The parts of the record, as the buffer is cut into them.
  obtain ⟨-, hkey, hvalue⟩ := Entry.Storable.peek_parts
    (b := { data := file, readIndex := o, capacity := o + e.size }) hpeek
  let body := e.key.length + e.value.length
  let fetched := ReadBuffer.ofBytes (Padded.read file (o + Header.sizeOf) body)
  have hcap : fetched.capacity = body := Padded.length_read
  -- The body is fetched as a whole.
  have hread : fetched.readableBytes = body := by
    rw [(ReadBuffer.ofBytes_inBounds _).readableBytes_eq]
    exact hcap
  have hfkey : fetched.peek e.key.length = e.key :=
    (Padded.read_ofList_read (m := 0) (by omega)).trans hkey
  have hfvalue : (fetched.retrieve e.key.length).peek e.value.length = e.value := by
    refine Eq.trans ?_ hvalue
    refine (Padded.read_ofList_read (m := 0 + e.key.length) (by omega)).trans ?_
    simp [ReadBuffer.peek, Nat.add_assoc]
  refine ⟨(fetched.retrieve e.key.length).retrieve e.value.length, ?_, ?_⟩
  · rw [hvalid, validBody]
    simp only [hs.keySize_eq, hs.valueSize_eq, hs.bodySize_eq]
    rw [fetch_of_lt (by simp only; omega)]
    simp only
    rw [if_neg (by rw [hread]; omega)]
    simp only [fetched, body] at hfkey hfvalue ⊢
    rw [hfkey, hfvalue, hsize]
    simp [Entry.header, Nat.add_assoc]
  · rw [ReadBuffer.InBounds.readableBytes_eq]
    · simp [body, fetched, ReadBuffer.ofBytes]
    · simp [ReadBuffer.InBounds, body, fetched, ReadBuffer.ofBytes]

/-- Near the end of the file no header is fetched, and an empty buffer holds none. -/
theorem valid_of_near_end (hend : it.size ≤ o + Header.sizeOf) (hr : it.readIndex = o)
    (hempty : buffer.readableBytes = 0) : it.valid file buffer = (false, it, buffer) := by
  unfold valid
  split_ifs with h
  · rfl
  · rw [fetch_of_le (by omega)]
    simp only [Header.unPack_of_short (b := buffer) (by rw [hempty]; decide)]

/-- A record that ends exactly at the end of the file is not yielded: `fetch` takes the
last byte of the file for one too many. -/
theorem valid_of_fills (hs : e.Storable) (hpeek : Padded.read file o e.size = e.pack)
    (hend : o + e.size = it.size) (hi : it.index = o) (hr : it.readIndex = o)
    (hempty : buffer.readableBytes = 0 ∨ o + Header.sizeOf < it.size) :
    (it.valid file buffer).1 = false := by
  have hsize : e.size = Header.sizeOf + e.key.length + e.value.length := rfl
  by_cases hbody : e.key.length + e.value.length = 0
  · rw [valid_of_near_end (o := o) (by omega) hr (hempty.resolve_right (by omega))]
  · obtain ⟨rest, hvalid, hzero⟩ := valid_eq_validBody buffer hs hpeek (by omega) hi hr
    rw [hvalid, validBody]
    simp only [hs.keySize_eq, hs.valueSize_eq, hs.bodySize_eq]
    rw [fetch_of_le (by simp only; omega)]
    simp only
    rw [if_pos (by rw [hzero]; omega)]

/-- The iterator stops where no record starts. -/
theorem valid_of_kEmpty (hzero : file o = 0) (hi : it.index = o) (hr : it.readIndex = o)
    (hempty : buffer.readableBytes = 0 ∨ o + Header.sizeOf < it.size) :
    (it.valid file buffer).1 = false := by
  rcases Nat.lt_or_ge (o + Header.sizeOf) it.size with h | h
  · have hidx : ¬ it.size ≤ it.index := by omega
    rw [valid, if_neg hidx, fetch_of_lt (by omega), hr]
    have : (ReadBuffer.ofBytes (Padded.read file o Header.sizeOf)).data 0 = 0 := by
      change Padded.ofList (0 : Byte) (Padded.read file o Header.sizeOf) 0 = 0
      rw [Padded.ofList_read (by decide)]
      exact hzero
    simp only [Header.unPack_of_kEmpty
      (b := ReadBuffer.ofBytes (Padded.read file o Header.sizeOf)) this]
  · rw [valid_of_near_end h hr (hempty.resolve_right (by omega))]

end

end RecordIterator
end PedroDB
