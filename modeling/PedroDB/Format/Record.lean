import Mathlib.Order.Defs.LinearOrder
import PedroDB.Defines
import PedroDB.Lib.Framing

/-!
# The record format

Data files are filled with records: a fixed header, the key, the value.

## Main definitions

* `RecordType`, `Header`, `Entry` — a record and its fields
* `Header.unPack`, `Entry.unPack`, `Entry.pack` — the decoders and the encoder
* `Location`, `Dir` — where a record is, and what the index keeps about it
* `Entry.Storable` — what the fixed-width header can represent

## Main results

* `Entry.unPack_pack` — a storable record is read back from where it was packed
-/

namespace PedroDB

/-- `record::Type`. The decoder casts any byte to it, so values outside the
enumeration occur. -/
inductive RecordType
  | kEmpty | kSet | kDelete
  | other (b : Byte)
  deriving DecidableEq, Repr

namespace RecordType

def toByte : RecordType → Byte
  | kEmpty => 0
  | kSet => 1
  | kDelete => 2
  | other b => b

/-- `static_cast<Type>` -/
def ofByte (b : Byte) : RecordType :=
  if b = 0 then kEmpty else if b = 1 then kSet else if b = 2 then kDelete else other b

end RecordType

/-- `record::Header` -/
structure Header where
  checksum : UInt32
  type : RecordType
  key_size : UInt8
  value_size : UInt32
  timestamp : UInt32

/-- `record::Entry` -/
structure Entry where
  checksum : UInt32
  type : RecordType
  key : Bytes
  value : Bytes
  timestamp : UInt32
  deriving DecidableEq

/-- `record::Location` -/
@[ext] structure Location where
  id : ℕ
  offset : ℕ
  deriving DecidableEq, Repr

namespace Location

/-- `Location::operator<` -/
def lt (a b : Location) : Bool := if a.id ≠ b.id then a.id < b.id else a.offset < b.offset

instance : LT Location := ⟨fun a b => a.lt b = true⟩

instance (a b : Location) : Decidable (a < b) := inferInstanceAs (Decidable (a.lt b = true))

theorem lt_iff {a b : Location} :
    a < b ↔ a.id < b.id ∨ a.id = b.id ∧ a.offset < b.offset := by
  change a.lt b = true ↔ _
  unfold lt
  split_ifs with h
  · simp only [decide_eq_true_eq]
    exact ⟨Or.inl, fun h' => h'.resolve_right fun h'' => h h''.1⟩
  · have : a.id = b.id := not_not.mp h
    simp [this]

theorem lt_irrefl (a : Location) : ¬ a < a := by
  rw [lt_iff]
  omega

theorem lt_trans {a b c : Location} (h : a < b) (h' : b < c) : a < c := by
  rw [lt_iff] at *
  omega

theorem lt_asymm {a b : Location} (h : a < b) : ¬ b < a :=
  fun h' => lt_irrefl a (lt_trans h h')

theorem lt_trichotomy (a b : Location) : a < b ∨ a = b ∨ b < a := by
  simp only [lt_iff, Location.ext_iff]
  omega

instance : LinearOrder Location where
  le a b := ¬ b < a
  lt a b := a < b
  le_refl := lt_irrefl
  le_trans a b c h h' := by
    rw [lt_iff] at *
    omega
  lt_iff_le_not_ge a b := by
    simp only [lt_iff]
    omega
  le_antisymm a b h h' := by
    rcases lt_trichotomy a b with hlt | rfl | hlt
    · exact absurd hlt h'
    · rfl
    · exact absurd hlt h
  le_total a b := by
    simp only [lt_iff]
    omega
  toDecidableLE a b := inferInstanceAs (Decidable (¬ b < a))

end Location

/-- `record::Dir` -/
structure Dir where
  entry_size : ℕ
  loc : Location
  deriving DecidableEq, Repr

/-- `Header::SizeOf()` -/
def Header.sizeOf : ℕ := 14

namespace Entry

variable {e : Entry}

/-- The length of the encoding, before any truncation. -/
def size (e : Entry) : ℕ := Header.sizeOf + e.key.length + e.value.length

/-- `Entry::SizeOf()`, in a `uint32_t`. -/
protected def sizeOf (e : Entry) : ℕ := u32 e.size

/-- The header that `Entry::Pack` writes. -/
def header (e : Entry) : Header :=
  { checksum := e.checksum
    type := e.type
    key_size := UInt8.ofNat e.key.length
    value_size := UInt32.ofNat e.value.length
    timestamp := e.timestamp }

/-- A set or a delete record whose sizes fit the header fields and a data file. -/
structure Storable (e : Entry) : Prop where
  type : e.type = .kSet ∨ e.type = .kDelete
  key : e.key.length ≤ 255
  size : e.size ≤ kMaxFileBytes

instance (e : Entry) : Decidable e.Storable :=
  decidable_of_iff
    ((e.type = .kSet ∨ e.type = .kDelete) ∧ e.key.length ≤ 255 ∧ e.size ≤ kMaxFileBytes)
    ⟨fun h => ⟨h.1, h.2.1, h.2.2⟩, fun h => ⟨h.type, h.key, h.size⟩⟩

theorem headerSize_le_size : Header.sizeOf ≤ e.size := by
  simp only [size]
  omega

theorem size_pos : 0 < e.size := Nat.lt_of_lt_of_le (by decide) headerSize_le_size

namespace Storable

theorem sizeOf_eq (h : e.Storable) : e.sizeOf = e.size := by
  have := h.size
  rw [kMaxFileBytes] at this
  exact u32_of_lt (by omega)

theorem bodySize_eq (h : e.Storable) :
    u32 (e.key.length + e.value.length) = e.key.length + e.value.length := by
  have := h.size
  simp only [Entry.size, kMaxFileBytes] at this
  exact u32_of_lt (by omega)

theorem keySize_eq (h : e.Storable) : e.header.key_size.toNat = e.key.length := by
  have := h.key
  simp only [header, UInt8.toNat_ofNat']
  omega

theorem valueSize_eq (h : e.Storable) : e.header.value_size.toNat = e.value.length := by
  have := h.size
  simp only [Entry.size, kMaxFileBytes] at this
  simp only [header, UInt32.toNat_ofNat']
  omega

theorem type_cast (h : e.Storable) :
    RecordType.ofByte e.type.toByte = e.type ∧ e.type.toByte ≠ RecordType.kEmpty.toByte := by
  rcases h.type with h | h <;> rw [h] <;> decide

end Storable

end Entry

section Codec

variable [Platform]

/-- `Header::UnPack`. Nothing is consumed when it fails. -/
def Header.unPack (b : ReadBuffer) : Option Header × ReadBuffer :=
  if b.readableBytes < Header.sizeOf then (none, b)
  else
    let u8_type := (b.peek 1).headD 0
    if u8_type = RecordType.kEmpty.toByte then (none, b)
    else
      let header : Header :=
        { type := RecordType.ofByte u8_type
          checksum := Platform.getU32 ((b.retrieve 1).peek 4)
          key_size := ((b.retrieve 5).peek 1).headD 0
          value_size := Platform.getU32 ((b.retrieve 6).peek 4)
          timestamp := Platform.getU32 ((b.retrieve 10).peek 4) }
      (some header, b.retrieve Header.sizeOf)

/-- `Header::Pack`, the bytes it appends. -/
def Header.pack (h : Header) : Bytes :=
  h.type.toByte :: (Platform.putU32 h.checksum ++ h.key_size :: (Platform.putU32 h.value_size ++
    Platform.putU32 h.timestamp))

namespace Entry

/-- `Hash`, the low half of `std::hash`. -/
def hash (s : Bytes) : UInt32 := (Platform.hash s).toUInt32

/-- `Entry::Checksum` -/
def checksumOf (key value : Bytes) : UInt32 := hash value ^^^ hash key

/-- `Entry::Validate` -/
def validate (e : Entry) : Bool := e.checksum = checksumOf e.key e.value

/-- `Entry::UnPack`. When the body does not fit, the header is already consumed. -/
def unPack (b : ReadBuffer) : Option Entry × ReadBuffer :=
  match Header.unPack b with
  | (none, b) => (none, b)
  | (some header, b) =>
    if b.readableBytes < u32 (header.key_size.toNat + header.value_size.toNat) then (none, b)
    else
      let key := b.peek header.key_size.toNat
      let b := b.retrieve header.key_size.toNat
      let value := b.peek header.value_size.toNat
      let b := b.retrieve header.value_size.toNat
      (some { checksum := header.checksum, type := header.type, key, value,
              timestamp := header.timestamp }, b)

/-- The bytes that `Entry::Pack` appends. -/
def pack (e : Entry) : Bytes := e.header.pack ++ e.key ++ e.value

/-- `Entry::Pack` into a region of `writable` bytes. `Header::Pack` has a check of its own,
whose answer is ignored. -/
def packInto (e : Entry) (writable : ℕ) : Option Bytes :=
  if writable < e.sizeOf then none
  else some ((if writable < Header.sizeOf then [] else e.header.pack) ++ e.key ++ e.value)

end Entry

/-! ### What the header can represent is read back -/

@[simp] theorem Header.length_pack (h : Header) : h.pack.length = Header.sizeOf := by
  simp [Header.pack, Header.sizeOf]

theorem Header.unPack_of_peek {b : ReadBuffer} {h : Header} (hb : b.InBounds)
    (hroom : b.readIndex + Header.sizeOf ≤ b.capacity) (hpeek : b.peek Header.sizeOf = h.pack)
    (hcast : RecordType.ofByte h.type.toByte = h.type)
    (hne : h.type.toByte ≠ RecordType.kEmpty.toByte) :
    Header.unPack b = (some h, b.retrieve Header.sizeOf) := by
  have hpack : h.pack = [h.type.toByte] ++ (Platform.putU32 h.checksum ++ ([h.key_size] ++
      (Platform.putU32 h.value_size ++ Platform.putU32 h.timestamp))) := rfl
  rw [hpack, show Header.sizeOf = 1 + (4 + (1 + (4 + 4))) from rfl] at hpeek
  rw [ReadBuffer.peek_add, ReadBuffer.peek_add, ReadBuffer.peek_add, ReadBuffer.peek_add] at hpeek
  simp only [ReadBuffer.retrieve_retrieve, Nat.reduceAdd] at hpeek
  obtain ⟨h1, hpeek⟩ := List.append_inj hpeek (by simp)
  obtain ⟨h2, hpeek⟩ := List.append_inj hpeek (by simp)
  obtain ⟨h3, hpeek⟩ := List.append_inj hpeek (by simp)
  obtain ⟨h4, h5⟩ := List.append_inj hpeek (by simp)
  have hread : ¬ b.readableBytes < Header.sizeOf := by
    rw [hb.readableBytes_eq]
    omega
  simp only [Header.unPack, if_neg hread, h1, h2, h3, h4, h5, List.headD_cons, if_neg hne,
    Platform.getU32_putU32, hcast]

namespace Entry

variable {e : Entry} {b : ReadBuffer}

theorem length_pack : e.pack.length = e.size := by
  simp [pack, Entry.size, Nat.add_assoc]

/-- In a region that has room for the header, all of the record is written. -/
theorem packInto_of_le {n : ℕ} (hsize : e.sizeOf ≤ n) (hheader : Header.sizeOf ≤ n) :
    e.packInto n = some e.pack := by
  rw [packInto, if_neg (not_lt.mpr hsize), if_neg (not_lt.mpr hheader)]
  rfl

namespace Storable

/-- The header and the body of a packed record, where they stand in a buffer. -/
theorem peek_parts (hpeek : b.peek e.size = e.pack) :
    b.peek Header.sizeOf = e.header.pack ∧
      (b.retrieve Header.sizeOf).peek e.key.length = e.key ∧
      (b.retrieve (Header.sizeOf + e.key.length)).peek e.value.length = e.value := by
  have hparts : b.peek Header.sizeOf ++ ((b.retrieve Header.sizeOf).peek e.key.length ++
      (b.retrieve (Header.sizeOf + e.key.length)).peek e.value.length)
        = e.header.pack ++ (e.key ++ e.value) := by
    rw [← List.append_assoc e.header.pack, ← pack, ← hpeek, Entry.size, Nat.add_assoc,
      ReadBuffer.peek_add, ReadBuffer.peek_add, ReadBuffer.retrieve_retrieve]
  obtain ⟨h1, hparts⟩ := List.append_inj hparts (by simp)
  exact ⟨h1, List.append_inj hparts (by simp)⟩

theorem header_unPack (h : e.Storable) (hb : b.InBounds)
    (hroom : b.readIndex + Header.sizeOf ≤ b.capacity)
    (hpeek : b.peek Header.sizeOf = e.header.pack) :
    Header.unPack b = (some e.header, b.retrieve Header.sizeOf) :=
  Header.unPack_of_peek hb hroom hpeek h.type_cast.1 h.type_cast.2

/-- A storable record is read back from where it was packed, and the reader stands
behind it. -/
theorem unPack_eq (h : e.Storable) (hb : b.InBounds)
    (hroom : b.readIndex + e.size ≤ b.capacity) (hpeek : b.peek e.size = e.pack) :
    unPack b = (some e, b.retrieve e.size) := by
  obtain ⟨hheader, hkey, hvalue⟩ := peek_parts hpeek
  have hsize : e.size = Header.sizeOf + e.key.length + e.value.length := rfl
  have hb' : (b.retrieve Header.sizeOf).InBounds := ReadBuffer.InBounds.retrieve (by omega)
  have hread : ¬ (b.retrieve Header.sizeOf).readableBytes < e.key.length + e.value.length := by
    rw [hb'.readableBytes_eq, ReadBuffer.retrieve_capacity, ReadBuffer.retrieve_readIndex]
    omega
  have hheader' := h.header_unPack hb (by omega) hheader
  simp only [unPack, hheader', h.keySize_eq, h.valueSize_eq, h.bodySize_eq, if_neg hread,
    ReadBuffer.retrieve_retrieve, hkey, hvalue]
  rfl

end Storable

end Entry

/-- Where no record starts, nothing is decoded and nothing is consumed. -/
theorem Header.unPack_of_kEmpty {b : ReadBuffer} (h : b.data b.readIndex = 0) :
    Header.unPack b = (none, b) := by
  have hpeek : b.peek 1 = [0] := by
    simp [ReadBuffer.peek, Padded.read, h]
  simp only [Header.unPack, hpeek, List.headD_cons, RecordType.toByte]
  split_ifs <;> rfl

theorem Header.unPack_of_short {b : ReadBuffer} (h : b.readableBytes < Header.sizeOf) :
    Header.unPack b = (none, b) := by
  rw [Header.unPack, if_pos h]

theorem Entry.unPack_of_header {b : ReadBuffer} (h : Header.unPack b = (none, b)) :
    Entry.unPack b = (none, b) := by
  rw [Entry.unPack, h]

end Codec
end PedroDB
