import PedroDB.Stored

/-!
# The buffer that iterators share

All `RecordIterator`s of a thread fetch into one static `ArrayBuffer`. `Reset` keeps its storage,
so behind the bytes that were fetched last there may be bytes of any other fetch, of any other
file. Here the iterator is given again, on such a buffer.

## Main definitions

* `Storage` — what a fetch leaves in the storage of the buffer
* `RecordIterator.validInto` — `Valid`, with such a buffer
* `RecordIterator.validAlone` — what `Valid` does, as if there were no buffer

## Main results

* `validInto_clear` — on storage that is cleared for each fetch this is `valid`
* `validInto_spec` — `Valid` does as if there were no buffer, if no header can be decoded from
  what is left in it, and leaves it so
-/

namespace PedroDB

/-- What an `ArrayBuffer` does with its storage between `Reset` and `Append`: the bytes that are
read stand at the front. Behind them stands what was there before, or anything else. -/
structure Storage where
  fill : Content → Bytes → Content
  front : ∀ old xs i, i < xs.length → fill old xs i = Padded.ofList 0 xs i

namespace Storage

/-- Storage that is cleared. -/
def clear : Storage := ⟨fun _ xs => Padded.ofList 0 xs, fun _ _ _ _ => rfl⟩

/-- Storage that is kept. -/
def keep : Storage where
  fill old xs := Padded.write old 0 xs
  front := by
    intro old xs i hi
    have hwrite : Padded.write old 0 xs (0 + i) = xs[i] := Padded.write_add hi
    rw [Nat.zero_add] at hwrite
    rw [hwrite, Padded.ofList_of_lt hi]

end Storage

/-- `Reset` -/
def ReadBuffer.reset (b : ReadBuffer) : ReadBuffer := { b with readIndex := 0, capacity := 0 }

namespace RecordIterator

/-- `fetch`; the buffer is left as it is if the bytes do not end before the end of the file. -/
def fetchInto (S : Storage) (it : RecordIterator) (file : Content) (buffer : ReadBuffer) (n : ℕ) :
    RecordIterator × ReadBuffer :=
  if it.size ≤ it.readIndex + n then (it, buffer)
  else
    ({ it with readIndex := it.readIndex + n },
      { data := S.fill buffer.data (Padded.read file it.readIndex n), readIndex := 0, capacity := n })

/-- The second half of `Valid`, once the header is decoded. -/
def validBodyInto (S : Storage) (it : RecordIterator) (file : Content) (buffer : ReadBuffer)
    (header : Header) : Bool × RecordIterator × ReadBuffer :=
  let body := u32 (header.key_size.toNat + header.value_size.toNat)
  let (it, buffer) := it.fetchInto S file buffer body
  if buffer.readableBytes < body then (false, it, buffer)
  else
    let entry : Entry :=
      { checksum := header.checksum
        type := header.type
        timestamp := header.timestamp
        key := buffer.peek header.key_size.toNat
        value := (buffer.retrieve header.key_size.toNat).peek header.value_size.toNat }
    (true, { it with entry },
      (buffer.retrieve header.key_size.toNat).retrieve header.value_size.toNat)

variable [Platform]

/-- `Valid` -/
def validInto (S : Storage) (it : RecordIterator) (file : Content) (buffer : ReadBuffer) :
    Bool × RecordIterator × ReadBuffer :=
  if it.size ≤ it.index then (false, it, buffer)
  else
    let (it, buffer) := it.fetchInto S file buffer Header.sizeOf
    match Header.unPack buffer with
    | (none, buffer) => (false, it, buffer)
    | (some header, buffer) => it.validBodyInto S file buffer header

/-- What the second half of `Valid` answers for the header at offset `o`, and how it moves on. -/
def bodyAlone (it : RecordIterator) (file : Content) (o : ℕ) : Bool × RecordIterator :=
  let body := (Header.stored file o).bodySize
  -- A record without body needs no second fetch.
  if body = 0 then (true, { it with entry := Entry.stored file o })
  else if it.size ≤ it.readIndex + body then (false, it)
  else (true, { it with readIndex := it.readIndex + body, entry := Entry.stored file o })

/-- What `Valid` answers and how it moves on, as if each iterator decoded the bytes of its file
where they stand. -/
def validAlone (it : RecordIterator) (file : Content) : Bool × RecordIterator :=
  if it.size ≤ it.index ∨ it.size ≤ it.readIndex + Header.sizeOf then (false, it)
  else if file it.readIndex = 0 then (false, { it with readIndex := it.readIndex + Header.sizeOf })
  else bodyAlone { it with readIndex := it.readIndex + Header.sizeOf } file it.readIndex

variable {S : Storage} {it : RecordIterator} {file : Content} {buffer : ReadBuffer} {n o m k : ℕ}
  {old : Content}

/-! ### Cleared storage -/

omit [Platform] in
theorem fetchInto_clear : it.fetchInto Storage.clear file buffer n = it.fetch file buffer n := by
  unfold fetchInto fetch
  split_ifs
  · rfl
  · rw [ReadBuffer.ofBytes, Padded.length_read]
    rfl

omit [Platform] in
theorem validBodyInto_clear {header : Header} :
    it.validBodyInto Storage.clear file buffer header = it.validBody file buffer header := by
  unfold validBodyInto validBody
  simp only [fetchInto_clear]

/-- On storage that is cleared for each fetch this is the iterator of the other files. -/
theorem validInto_clear : it.validInto Storage.clear file buffer = it.valid file buffer := by
  unfold validInto valid
  rcases hheader : Header.unPack (it.fetch file buffer Header.sizeOf).2 with ⟨_ | header, rest⟩
  · simp only [fetchInto_clear, hheader]
  · simp only [fetchInto_clear, hheader, validBodyInto_clear]

/-! ### What was fetched -/

/-- The buffer after `n` bytes were fetched from offset `o`. -/
def fetched (S : Storage) (old : Content) (file : Content) (o n : ℕ) : ReadBuffer :=
  { data := S.fill old (Padded.read file o n), readIndex := 0, capacity := n }

section Fetched

omit [Platform]

theorem fetchInto_of_lt (h : it.readIndex + n < it.size) : it.fetchInto S file buffer n =
    ({ it with readIndex := it.readIndex + n }, fetched S buffer.data file it.readIndex n) := by
  rw [fetchInto, if_neg (by omega)]
  rfl

theorem fetchInto_of_le (h : it.size ≤ it.readIndex + n) :
    it.fetchInto S file buffer n = (it, buffer) := by
  rw [fetchInto, if_pos h]

theorem data_fetched (hm : m < n) : (fetched S old file o n).data m = file (o + m) := by
  have hlen : m < (Padded.read file o n).length := by
    rw [Padded.length_read]
    exact hm
  exact (S.front old _ m hlen).trans (Padded.ofList_read hm)

/-- The bytes of the file, and no leftovers, as far as they were fetched. -/
theorem peek_fetched (hmk : m + k ≤ n) :
    ((fetched S old file o n).retrieve m).peek k = Padded.read file (o + m) k := by
  apply List.map_congr_left
  intro i hi
  have hik := List.mem_range.mp hi
  have hdata : (fetched S old file o n).data (m + i) = file (o + (m + i)) :=
    data_fetched (by omega)
  rw [Nat.add_assoc, ← hdata]
  exact congrArg (fun j => (fetched S old file o n).data (j + i)) (Nat.zero_add m)

theorem readableBytes_fetched (hm : m ≤ n) :
    ((fetched S old file o n).retrieve m).readableBytes = n - m := by
  have hin : ((fetched S old file o n).retrieve m).InBounds := by
    apply ReadBuffer.InBounds.retrieve
    exact (Nat.zero_add m).trans_le hm
  rw [hin.readableBytes_eq]
  exact congrArg (n - ·) (Nat.zero_add m)

end Fetched

theorem headerPeek_fetched :
    Header.peek (fetched S old file o Header.sizeOf) = Header.stored file o := by
  apply Header.peek_eq_stored
  intro i k hik
  exact peek_fetched hik

/-- The header at the front of what was fetched. -/
theorem header_unPack_of_fetched (htype : file o ≠ 0) :
    Header.unPack (fetched S old file o Header.sizeOf) =
      (some (Header.stored file o), (fetched S old file o Header.sizeOf).retrieve Header.sizeOf) := by
  have hread : (fetched S old file o Header.sizeOf).readableBytes = Header.sizeOf :=
    readableBytes_fetched (m := 0) (Nat.zero_le _)
  have hfirst : (fetched S old file o Header.sizeOf).data 0 = file o :=
    data_fetched (m := 0) (by decide)
  rcases Header.unPack_cases (fetched S old file o Header.sizeOf) with ⟨hno, -⟩ | ⟨-, hsome⟩
  · rcases hno with hshort | hempty
    · omega
    · exact absurd (hfirst.symm.trans hempty) htype
  · rw [hsome, headerPeek_fetched]

omit [Platform] in
theorem spent_of_readableBytes (h : buffer.readableBytes = 0) : Spent buffer := by
  left
  rw [h]
  decide

/-! ### `Valid` -/

/-- The header that `Valid` decodes, if it decodes one, has lengths whose sum fits in 32 bits. -/
def Narrow (file : Content) (it : RecordIterator) : Prop :=
  it.index < it.size → it.readIndex + Header.sizeOf < it.size → file it.readIndex ≠ 0 →
    (Header.stored file it.readIndex).bodySize < 2 ^ 32

/-- The record at offset `o`, put together from its header and the fetched body. -/
theorem stored_eq_of_fetched {header : Header} (hheader : Header.stored file o = header)
    (hbody : header.bodySize = n) :
    { checksum := header.checksum
      type := header.type
      timestamp := header.timestamp
      key := (fetched S old file (o + Header.sizeOf) n).peek header.key_size.toNat
      value := ((fetched S old file (o + Header.sizeOf) n).retrieve header.key_size.toNat).peek
        header.value_size.toNat } = Entry.stored file o := by
  rw [Header.bodySize] at hbody
  have hkey : ((fetched S old file (o + Header.sizeOf) n).retrieve 0).peek header.key_size.toNat =
      Padded.read file (o + Header.sizeOf + 0) header.key_size.toNat := peek_fetched (by omega)
  have hvalue : ((fetched S old file (o + Header.sizeOf) n).retrieve
      header.key_size.toNat).peek header.value_size.toNat =
        Padded.read file (o + Header.sizeOf + header.key_size.toNat) header.value_size.toNat :=
    peek_fetched (by omega)
  rw [ReadBuffer.retrieve_zero, Nat.add_zero] at hkey
  rw [Nat.add_assoc] at hvalue
  rw [hkey, hvalue, ← hheader]
  rfl

/-- The second half of `Valid` does as if there were no buffer, and reads all that it fetches. -/
theorem validBodyInto_spec (hread : buffer.readableBytes = 0)
    (ho : it.readIndex = o + Header.sizeOf) (hnarrow : (Header.stored file o).bodySize < 2 ^ 32) :
    ∃ rest, it.validBodyInto S file buffer (Header.stored file o) =
      ((it.bodyAlone file o).1, (it.bodyAlone file o).2, rest) ∧ Spent rest := by
  obtain ⟨header, hheader⟩ : ∃ header, Header.stored file o = header := ⟨_, rfl⟩
  obtain ⟨body, hbody⟩ : ∃ body, header.bodySize = body := ⟨_, rfl⟩
  have hsum : header.key_size.toNat + header.value_size.toNat = body := hbody
  rw [hheader, hbody] at hnarrow
  unfold validBodyInto bodyAlone
  rw [hheader]
  dsimp only
  rw [hsum, hbody, u32_of_lt hnarrow]
  by_cases hfits : it.readIndex + body < it.size
  · -- The body is fetched, and then read as a whole.
    have hall : (fetched S buffer.data file it.readIndex body).readableBytes = body :=
      readableBytes_fetched (m := 0) (Nat.zero_le _)
    have hrest : Spent (((fetched S buffer.data file it.readIndex body).retrieve
        header.key_size.toNat).retrieve header.value_size.toNat) := by
      apply spent_of_readableBytes
      rw [ReadBuffer.retrieve_retrieve, hsum, readableBytes_fetched le_rfl, Nat.sub_self]
    rw [fetchInto_of_lt hfits]
    dsimp only
    rw [if_neg (by rw [hall]; exact lt_irrefl _), if_neg (not_le.mpr hfits)]
    rw [ho] at hrest ⊢
    rw [stored_eq_of_fetched hheader hbody]
    refine ⟨_, ?_, hrest⟩
    by_cases hempty : body = 0
    · rw [if_pos hempty, hempty, Nat.add_zero, ← ho]
    · rw [if_neg hempty]
  · -- Nothing is fetched, so only a record without body is complete.
    rw [fetchInto_of_le (not_lt.mp hfits)]
    dsimp only
    rw [hread, if_pos (not_lt.mp hfits)]
    by_cases hempty : body = 0
    · have hkey : header.key_size.toNat = 0 := by omega
      have hvalue : header.value_size.toNat = 0 := by omega
      have hstored := @stored_eq_of_fetched _ S file body o buffer.data header hheader hbody
      rw [hkey, hvalue] at hstored ⊢
      rw [if_pos hempty, if_neg (by omega), ← hstored]
      exact ⟨_, rfl, spent_of_readableBytes hread⟩
    · rw [if_neg hempty, if_pos (Nat.pos_of_ne_zero hempty)]
      exact ⟨_, rfl, spent_of_readableBytes hread⟩

/-- `Valid` does as if there were no buffer, and leaves no header in it. -/
theorem validInto_spec (hspent : Spent buffer) (hnarrow : Narrow file it) :
    ∃ rest, it.validInto S file buffer =
      ((it.validAlone file).1, (it.validAlone file).2, rest) ∧ Spent rest := by
  unfold validInto validAlone
  by_cases hindex : it.size ≤ it.index
  · rw [if_pos hindex, if_pos (Or.inl hindex)]
    exact ⟨buffer, rfl, hspent⟩
  rw [if_neg hindex]
  by_cases hroom : it.size ≤ it.readIndex + Header.sizeOf
  · -- Nothing is fetched, and the leftovers hold no header.
    rw [if_pos (Or.inr hroom), fetchInto_of_le hroom]
    simp only [hspent.unPack]
    exact ⟨buffer, rfl, hspent⟩
  rw [if_neg (not_or.mpr ⟨hindex, hroom⟩), fetchInto_of_lt (not_le.mp hroom)]
  dsimp only
  by_cases htype : file it.readIndex = 0
  · -- The header is fetched, and stays.
    have hleft : Spent (fetched S buffer.data file it.readIndex Header.sizeOf) := by
      right
      exact (data_fetched (m := 0) (by decide)).trans htype
    rw [if_pos htype]
    simp only [hleft.unPack]
    exact ⟨_, rfl, hleft⟩
  · rw [if_neg htype]
    simp only [header_unPack_of_fetched htype]
    apply validBodyInto_spec _ rfl (hnarrow (not_le.mp hindex) (not_le.mp hroom) htype)
    rw [readableBytes_fetched le_rfl, Nat.sub_self]

end RecordIterator
end PedroDB
