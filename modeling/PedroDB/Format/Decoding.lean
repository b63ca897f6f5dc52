import PedroDB.Format.Record

/-!
# Decoding arbitrary bytes

`Entry::UnPack` checks that there is room for the body of a record, and adds the two lengths
of the header in 32 bits to do so. This file says what it answers on any bytes.

## Main definitions

* `Header.peek`, `Entry.peek` — what stands at the read position, taken at its word
* `Header.bodySize` — the two lengths, added without overflow
* `ReadBuffer.Starts` — the decoder takes the bytes at the read position for a record

## Main results

* `Header.unPack_cases`, `Entry.unPack_cases` — what the decoders answer
* `Entry.unPack_of_starts`, `Entry.unPack_of_not_starts` — the same inside a buffer
-/

namespace PedroDB

/-- The lengths of key and value. `UnPack` adds them in 32 bits. -/
def Header.bodySize (h : Header) : ℕ := h.key_size.toNat + h.value_size.toNat

variable [Platform] {b b' : ReadBuffer} {e : Entry}

/-- The header at the read position, if there is one. -/
def Header.peek (b : ReadBuffer) : Header :=
  { type := RecordType.ofByte ((b.peek 1).headD 0)
    checksum := Platform.getU32 ((b.retrieve 1).peek 4)
    key_size := ((b.retrieve 5).peek 1).headD 0
    value_size := Platform.getU32 ((b.retrieve 6).peek 4)
    timestamp := Platform.getU32 ((b.retrieve 10).peek 4) }

/-- The record at the read position, if there is one. -/
def Entry.peek (b : ReadBuffer) : Entry :=
  { checksum := (Header.peek b).checksum
    type := (Header.peek b).type
    key := (b.retrieve Header.sizeOf).peek (Header.peek b).key_size.toNat
    value := (b.retrieve (Header.sizeOf + (Header.peek b).key_size.toNat)).peek
      (Header.peek b).value_size.toNat
    timestamp := (Header.peek b).timestamp }

omit [Platform] in
theorem ReadBuffer.headD_peek_one (b : ReadBuffer) : (b.peek 1).headD 0 = b.data b.readIndex := by
  simp [ReadBuffer.peek, Padded.read]

/-- A header is decoded if there is room for one and its type is not `kEmpty`. -/
theorem Header.unPack_cases (b : ReadBuffer) :
    (b.readableBytes < Header.sizeOf ∨ b.data b.readIndex = 0) ∧ Header.unPack b = (none, b) ∨
      (Header.sizeOf ≤ b.readableBytes ∧ b.data b.readIndex ≠ 0) ∧
        Header.unPack b = (some (Header.peek b), b.retrieve Header.sizeOf) := by
  unfold Header.unPack
  simp only [b.headD_peek_one, RecordType.toByte]
  by_cases hroom : b.readableBytes < Header.sizeOf
  · left
    rw [if_pos hroom]
    exact ⟨Or.inl hroom, rfl⟩
  · rw [if_neg hroom]
    by_cases htype : b.data b.readIndex = 0
    · left
      rw [if_pos htype]
      exact ⟨Or.inr htype, rfl⟩
    · right
      rw [if_neg htype]
      refine ⟨⟨not_lt.mp hroom, htype⟩, ?_⟩
      rw [Header.peek, b.headD_peek_one]

namespace Entry

theorem length_peek_key : (Entry.peek b).key.length = (Header.peek b).key_size.toNat :=
  ReadBuffer.length_peek

theorem length_peek_value : (Entry.peek b).value.length = (Header.peek b).value_size.toNat :=
  ReadBuffer.length_peek

/-- A decoded record is as long as its header says. -/
theorem size_peek : (Entry.peek b).size = Header.sizeOf + (Header.peek b).bodySize := by
  rw [Entry.size, length_peek_key, length_peek_value, Header.bodySize, Nat.add_assoc]

theorem length_peek_key_le : (Entry.peek b).key.length ≤ 255 := by
  have := (Header.peek b).key_size.toNat_lt
  rw [length_peek_key]
  omega

/-- Nothing is decoded, or the record at the read position, and the reader stands behind it. -/
theorem unPack_cases (b : ReadBuffer) :
    ((Entry.unPack b).1 = none ∧
        ((Entry.unPack b).2 = b ∨ Header.sizeOf ≤ b.readableBytes ∧
          (Entry.unPack b).2 = b.retrieve Header.sizeOf)) ∨
      (Header.sizeOf ≤ b.readableBytes ∧ b.data b.readIndex ≠ 0 ∧
          u32 (Header.peek b).bodySize ≤ (b.retrieve Header.sizeOf).readableBytes) ∧
        Entry.unPack b = (some (Entry.peek b), b.retrieve (Entry.peek b).size) := by
  unfold Entry.unPack
  rcases Header.unPack_cases b with ⟨-, hnone⟩ | ⟨⟨hroom, htype⟩, hsome⟩
  · left
    rw [hnone]
    exact ⟨rfl, Or.inl rfl⟩
  · rw [hsome]
    by_cases hbody : (b.retrieve Header.sizeOf).readableBytes <
        u32 ((Header.peek b).key_size.toNat + (Header.peek b).value_size.toNat)
    · left
      simp only [if_pos hbody]
      exact ⟨trivial, Or.inr ⟨hroom, trivial⟩⟩
    · right
      simp only [if_neg hbody, ReadBuffer.retrieve_retrieve]
      refine ⟨⟨hroom, htype, not_lt.mp hbody⟩, ?_⟩
      rw [size_peek, Header.bodySize, Nat.add_assoc]
      rfl

/-- A record that is decoded stands at the read position. -/
theorem of_unPack_eq_some (h : Entry.unPack b = (some e, b')) :
    (Header.sizeOf ≤ b.readableBytes ∧ b.data b.readIndex ≠ 0 ∧
      u32 (Header.peek b).bodySize ≤ (b.retrieve Header.sizeOf).readableBytes) ∧
      e = Entry.peek b ∧ b' = b.retrieve e.size := by
  rcases unPack_cases b with ⟨hnone, -⟩ | ⟨hroom, hsome⟩
  · rw [h] at hnone
    cases hnone
  · rw [h] at hsome
    obtain ⟨he, hb'⟩ := Prod.mk.inj hsome
    obtain rfl := Option.some_inj.mp he
    exact ⟨hroom, rfl, hb'⟩

end Entry

/-- The bytes at the read position are taken for a record: the type is not `kEmpty`, and the
body fits by its 32-bit size. -/
def ReadBuffer.Starts (b : ReadBuffer) : Prop :=
  b.data b.readIndex ≠ 0 ∧ Header.sizeOf + u32 (Header.peek b).bodySize ≤ b.readableBytes

namespace Entry

theorem unPack_of_starts (hb : b.InBounds) (h : b.Starts) :
    Entry.unPack b = (some (Entry.peek b), b.retrieve (Entry.peek b).size) := by
  obtain ⟨htype, hroom⟩ := h
  have hread := hb.readableBytes_eq
  have hin : b.readIndex ≤ b.capacity := hb
  rcases Header.unPack_cases b with ⟨hno, -⟩ | ⟨-, hsome⟩
  · rcases hno with hshort | hempty
    · omega
    · exact absurd hempty htype
  · have hbody : ¬ (b.retrieve Header.sizeOf).readableBytes <
        u32 ((Header.peek b).key_size.toNat + (Header.peek b).value_size.toNat) := by
      rw [ReadBuffer.InBounds.readableBytes_eq (ReadBuffer.InBounds.retrieve (by omega)),
        ReadBuffer.retrieve_capacity, ReadBuffer.retrieve_readIndex, not_lt]
      rw [Header.bodySize] at hroom
      omega
    unfold Entry.unPack
    rw [hsome]
    simp only [if_neg hbody, ReadBuffer.retrieve_retrieve]
    rw [size_peek, Header.bodySize, Nat.add_assoc]
    rfl

theorem unPack_of_not_starts (hb : b.InBounds) (h : ¬ b.Starts) :
    (Entry.unPack b).1 = none ∧ (Entry.unPack b).2.InBounds := by
  have hread := hb.readableBytes_eq
  have hin : b.readIndex ≤ b.capacity := hb
  rcases unPack_cases b with ⟨hnone, hrest⟩ | ⟨⟨hroom, htype, hbody⟩, -⟩
  · refine ⟨hnone, ?_⟩
    rcases hrest with hrest | ⟨hroom, hrest⟩
    · rw [hrest]
      exact hb
    · rw [hrest]
      exact ReadBuffer.InBounds.retrieve (by omega)
  · refine absurd ⟨htype, ?_⟩ h
    rw [ReadBuffer.InBounds.readableBytes_eq (ReadBuffer.InBounds.retrieve (by omega)),
      ReadBuffer.retrieve_capacity, ReadBuffer.retrieve_readIndex] at hbody
    omega

end Entry

end PedroDB
