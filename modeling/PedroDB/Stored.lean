import PedroDB.Format.Decoding
import PedroDB.Iterator
import PedroDB.Lib.Walk

/-!
# The records that arbitrary bytes spell out

A file may hold anything. This file says which records its bytes spell out, and what `Valid`
answers about them.

## Main definitions

* `Header.stored`, `Entry.stored` — what stands at an offset, taken at its word
* `walk` — the records that some bytes spell out
* `RecordIterator.Spent` — what iterators leave in the buffer they share
* `RecordIterator.Stands` — where an iterator is

## Main results

* `Entry.stored_congr` — only the bytes of the record matter
* `valid_of_not_starts`, `valid_of_starts` — `Valid` on any bytes
-/

namespace PedroDB

variable [Platform] {file file' : Content} {o n m : ℕ} {buffer : ReadBuffer}

/-- The header at offset `o`, if there is one. -/
def Header.stored (file : Content) (o : ℕ) : Header :=
  Header.peek { data := file, readIndex := o, capacity := 0 }

/-- The record at offset `o`, if there is one. -/
def Entry.stored (file : Content) (o : ℕ) : Entry :=
  Entry.peek { data := file, readIndex := o, capacity := 0 }

theorem Entry.size_stored (file : Content) (o : ℕ) :
    (Entry.stored file o).size = Header.sizeOf + (Header.stored file o).bodySize :=
  Entry.size_peek

theorem Entry.key_stored : (Entry.stored file o).key =
    Padded.read file (o + Header.sizeOf) (Entry.stored file o).key.length := by
  have hlen : (Entry.stored file o).key.length = (Header.stored file o).key_size.toNat :=
    Entry.length_peek_key
  rw [hlen]
  rfl

theorem Entry.value_stored : (Entry.stored file o).value =
    Padded.read file (o + Header.sizeOf + (Entry.stored file o).key.length)
      (Entry.stored file o).value.length := by
  have hkey : (Entry.stored file o).key.length = (Header.stored file o).key_size.toNat :=
    Entry.length_peek_key
  have hvalue : (Entry.stored file o).value.length = (Header.stored file o).value_size.toNat :=
    Entry.length_peek_value
  rw [hkey, hvalue, Nat.add_assoc]
  rfl

/-- The records that the first `m` bytes of a file spell out: one starts where the type is not
`kEmpty` and the body, by its 32-bit size, fits. -/
def walk (file : Content) (m : ℕ) : Walk Entry where
  starts o := file o ≠ 0 ∧ o + Header.sizeOf + u32 (Header.stored file o).bodySize ≤ m
  size o := (Entry.stored file o).size
  item := Entry.stored file
  size_pos o := (Entry.stored file o).size_pos

/-- A reader inside the file stands where a record of the walk starts. -/
theorem starts_iff (ho : o ≤ m) :
    ({ data := file, readIndex := o, capacity := m } : ReadBuffer).Starts ↔
      (walk file m).starts o := by
  have hread : ({ data := file, readIndex := o, capacity := m } : ReadBuffer).readableBytes =
    m - o := sub64_of_le ho
  have hpeek : Header.peek { data := file, readIndex := o, capacity := m } =
    Header.stored file o := rfl
  rw [ReadBuffer.Starts, hread, hpeek]
  have hiff : Header.sizeOf + u32 (Header.stored file o).bodySize ≤ m - o ↔
      o + Header.sizeOf + u32 (Header.stored file o).bodySize ≤ m := by omega
  exact and_congr_right fun _ => hiff

/-- A record whose body fits by its 32-bit size and that does not reach beyond `2 ^ 32`
fits. -/
theorem end_le_of_starts (hstarts : (walk file m).starts o)
    (hsound : o + (Entry.stored file o).size < 2 ^ 32) : o + (Entry.stored file o).size ≤ m := by
  have hsize := Entry.size_stored file o
  have hroom := hstarts.2
  rw [u32_of_lt (by omega)] at hroom
  omega

/-- A buffer whose first bytes are those of the file at offset `o` begins with the header there. -/
theorem Header.peek_eq_stored {b : ReadBuffer} (hpart : ∀ i k, i + k ≤ Header.sizeOf →
    (b.retrieve i).peek k = Padded.read file (o + i) k) : Header.peek b = Header.stored file o := by
  have hfirst := hpart 0 1 (by decide)
  rw [ReadBuffer.retrieve_zero] at hfirst
  rw [Header.peek, hfirst, hpart 1 4 (by decide), hpart 5 1 (by decide), hpart 6 4 (by decide),
    hpart 10 4 (by decide)]
  rfl

/-! ### Iterators -/

namespace RecordIterator

variable {it : RecordIterator}

/-- No header can be decoded from what is left in the buffer. -/
def Spent (buffer : ReadBuffer) : Prop :=
  buffer.readableBytes < Header.sizeOf ∨ buffer.data buffer.readIndex = 0

/-- The iterator over a file of `n` bytes stands at offset `o`, and a header can still be
fetched there or none is left in the buffer. -/
structure Stands (it : RecordIterator) (buffer : ReadBuffer) (n o : ℕ) : Prop where
  index : it.index = o
  readIndex : it.readIndex = o
  size : it.size = n
  spent : o + Header.sizeOf < n ∨ Spent buffer

theorem Spent.unPack (h : Spent buffer) : Header.unPack buffer = (none, buffer) := by
  rcases h with hshort | hempty
  · exact Header.unPack_of_short hshort
  · exact Header.unPack_of_kEmpty hempty

omit [Platform] in
theorem first_fetched (file : Content) (o : ℕ) :
    (ReadBuffer.ofBytes (Padded.read file o Header.sizeOf)).data 0 = file o := by
  have hpos : 0 < Header.sizeOf := by decide
  change Padded.ofList (0 : Byte) (Padded.read file o Header.sizeOf) 0 = file o
  rw [Padded.ofList_read hpos, Nat.add_zero]

/-- The header that is decoded from the fetched bytes. -/
theorem peek_ofBytes_read (file : Content) (o : ℕ) :
    Header.peek (ReadBuffer.ofBytes (Padded.read file o Header.sizeOf)) =
      Header.stored file o := by
  apply Header.peek_eq_stored
  intro i k hik
  rw [ReadBuffer.peek, ReadBuffer.retrieve_readIndex]
  exact (Padded.read_ofList_read (by simpa [ReadBuffer.ofBytes] using hik)).trans
    (by simp [ReadBuffer.ofBytes])

/-- `Valid` in front of a header that is fetched and not empty. -/
theorem valid_eq_validBody_stored (hstands : it.Stands buffer n o) (hroom : o + Header.sizeOf < n)
    (htype : file o ≠ 0) : ∃ rest, it.valid file buffer =
      ({ it with readIndex := o + Header.sizeOf }).validBody file rest (Header.stored file o) ∧
        rest.readableBytes = 0 := by
  obtain ⟨hindex, hread, hsize, -⟩ := hstands
  let fetched := ReadBuffer.ofBytes (Padded.read file o Header.sizeOf)
  have hfirst : fetched.data fetched.readIndex = file o := first_fetched file o
  have hcap : fetched.capacity = Header.sizeOf := Padded.length_read
  have hlen : fetched.readableBytes = Header.sizeOf := by
    rw [(ReadBuffer.ofBytes_inBounds _).readableBytes_eq]
    exact hcap
  refine ⟨fetched.retrieve Header.sizeOf, ?_, ?_⟩
  · rw [valid, if_neg (by omega), fetch_of_lt (by omega), hread]
    rcases Header.unPack_cases fetched with ⟨hno, -⟩ | ⟨-, hsome⟩
    · rcases hno with hshort | hempty
      · omega
      · exact absurd (hfirst.symm.trans hempty) htype
    · simp only [fetched] at hsome ⊢
      rw [hsome, peek_ofBytes_read]
  · rw [ReadBuffer.InBounds.readableBytes_eq (ReadBuffer.InBounds.retrieve hcap.ge),
      ReadBuffer.retrieve_capacity, ReadBuffer.retrieve_readIndex, hcap]
    exact Nat.sub_self _

/-- `Valid` where no record of the walk starts: it stops, with nothing left to decode. -/
theorem valid_of_not_starts (hstands : it.Stands buffer n o)
    (hstarts : ¬ (walk file (n - 1)).starts o) :
    ∃ it' buffer', it.valid file buffer = (false, it', buffer') ∧ Spent buffer' := by
  obtain ⟨hindex, hread, hsize, hspent⟩ := id hstands
  rcases Nat.lt_or_ge (o + Header.sizeOf) n with hroom | hroom
  · -- No header begins here, or one that leads too far.
    by_cases htype : file o = 0
    · -- The fetched header is that of no record, and stays in the buffer.
      have hempty : Spent (ReadBuffer.ofBytes (Padded.read file o Header.sizeOf)) :=
        Or.inr ((first_fetched file o).trans htype)
      refine ⟨{ it with readIndex := o + Header.sizeOf }, _, ?_, hempty⟩
      rw [valid, if_neg (by omega), fetch_of_lt (by omega), hread]
      simp only [hempty.unPack]
    · obtain ⟨rest, hvalid, hzero⟩ := valid_eq_validBody_stored hstands hroom htype
      -- The body does not fit into the file.
      have hbody : n ≤ o + Header.sizeOf + u32 (Header.stored file o).bodySize := by
        by_contra hlt
        exact hstarts ⟨htype, by omega⟩
      rw [Header.bodySize] at hbody
      refine ⟨{ it with readIndex := o + Header.sizeOf }, rest, ?_, Or.inl ?_⟩
      · rw [hvalid, validBody]
        simp only [fetch, hsize, if_pos hbody]
        rw [if_pos (by omega)]
      · rw [hzero]
        decide
  · -- There is no room for another header.
    have hspent := hspent.resolve_left (by omega)
    refine ⟨it, buffer, ?_, hspent⟩
    unfold valid
    split_ifs
    · rfl
    · rw [fetch_of_le (by omega)]
      simp only [hspent.unPack]

/-- `Valid` where a record starts, whose body is there by its 32-bit size. -/
theorem valid_of_starts (hstands : it.Stands buffer n o)
    (hstarts : (walk file (n - 1)).starts o) :
    ∃ e buffer', it.valid file buffer = (true, { it with
        readIndex := o + Header.sizeOf + u32 (Header.stored file o).bodySize, entry := e },
          buffer') ∧
      e.size = (Entry.stored file o).size ∧
      ((Header.stored file o).bodySize < 2 ^ 32 → e = Entry.stored file o) ∧ Spent buffer' := by
  obtain ⟨hindex, hread, hsize, -⟩ := id hstands
  obtain ⟨htype, hroom⟩ := hstarts
  have hpos : 0 < Header.sizeOf := by decide
  obtain ⟨rest, hvalid, -⟩ := valid_eq_validBody_stored hstands (by omega) htype
  let header := Header.stored file o
  let body := u32 header.bodySize
  let fetched := ReadBuffer.ofBytes (Padded.read file (o + Header.sizeOf) body)
  have hcap : fetched.capacity = body := Padded.length_read
  have hlen : fetched.readableBytes = body := by
    rw [(ReadBuffer.ofBytes_inBounds _).readableBytes_eq]
    exact hcap
  -- The body ends inside the file.
  have hend : o + Header.sizeOf + body < n := by
    have : o + Header.sizeOf + body ≤ n - 1 := hroom
    omega
  let e : Entry :=
    { checksum := header.checksum
      type := header.type
      timestamp := header.timestamp
      key := fetched.peek header.key_size.toNat
      value := (fetched.retrieve header.key_size.toNat).peek header.value_size.toNat }
  refine ⟨e, (fetched.retrieve header.key_size.toNat).retrieve header.value_size.toNat, ?_, ?_,
    fun hsound => ?_, Or.inr ?_⟩
  · rw [hvalid, validBody]
    have hfetch : ({ it with readIndex := o + Header.sizeOf } : RecordIterator).fetch file rest
        (u32 (header.key_size.toNat + header.value_size.toNat)) =
          ({ it with readIndex := o + Header.sizeOf + body }, fetched) :=
      fetch_of_lt (hsize.symm ▸ hend)
    simp only [header] at hfetch
    simp only [hfetch]
    rw [if_neg (by rw [hlen]; exact lt_irrefl _)]
  · rw [Entry.size_stored, Entry.size, ReadBuffer.length_peek, ReadBuffer.length_peek,
      Header.bodySize, Nat.add_assoc]
  · have hbody : body = header.key_size.toNat + header.value_size.toNat := u32_of_lt hsound
    have hkey : fetched.peek header.key_size.toNat =
        Padded.read file (o + Header.sizeOf) header.key_size.toNat :=
      Padded.read_ofList_read (by change 0 + _ ≤ body; omega)
    have hvalue : (fetched.retrieve header.key_size.toNat).peek header.value_size.toNat =
        Padded.read file (o + (Header.sizeOf + header.key_size.toNat))
          header.value_size.toNat := by
      rw [← Nat.add_assoc]
      refine (Padded.read_ofList_read (by change 0 + _ + _ ≤ body; omega)).trans ?_
      simp [fetched, ReadBuffer.ofBytes]
    simp only [e, hkey, hvalue]
    rfl
  · -- Behind what was fetched the buffer holds nothing.
    refine Padded.ofList_of_length_le ?_
    rw [Padded.length_read, ReadBuffer.retrieve_readIndex, ReadBuffer.retrieve_readIndex]
    have hbody : body ≤ header.key_size.toNat + header.value_size.toNat := Nat.mod_le _ _
    omega

/-- The iterator behind a record that it has yielded. -/
theorem Stands.next (hstands : it.Stands buffer n o) (hn : n ≤ 2 ^ 32)
    (hstarts : (walk file (n - 1)).starts o) :
    ∃ it' buffer', it.valid file buffer = (true, it', buffer') ∧ it'.getOffset = o ∧
      it'.entry.size = (Entry.stored file o).size ∧
      ((Header.stored file o).bodySize < 2 ^ 32 → it'.entry = Entry.stored file o) ∧
      it'.next.2.Stands buffer' n (o + it'.entry.sizeOf) ∧ o + it'.entry.sizeOf ≤ n ∧
      Spent buffer' := by
  obtain ⟨e, buffer', hvalid, hsize, hentry, hspent⟩ := valid_of_starts hstands hstarts
  have hroom := hstarts.2
  have hpos : 0 < Header.sizeOf := by decide
  have hsizeOf : e.sizeOf = Header.sizeOf + u32 (Header.stored file o).bodySize := by
    rw [Entry.sizeOf, hsize, Entry.size_stored]
    unfold u32 at hroom ⊢
    omega
  refine ⟨_, buffer', hvalid, ?_, hsize, hentry, ⟨?_, ?_, hstands.size, Or.inr hspent⟩, ?_, hspent⟩
  · rw [getOffset, hstands.index]
    exact u32_of_lt (by omega)
  · simp only [RecordIterator.next, hstands.index]
  · simp only [RecordIterator.next, hsizeOf, Nat.add_assoc]
  · rw [hsizeOf]
    omega

end RecordIterator

/-! ### Where the bytes are the same -/

theorem Header.stored_congr (h : ∀ i < Header.sizeOf, file' (o + i) = file (o + i)) :
    Header.stored file' o = Header.stored file o := by
  have hpart : ∀ i k, i + k ≤ Header.sizeOf →
      Padded.read file' (o + i) k = Padded.read file (o + i) k := by
    intro i k hik
    refine Padded.read_congr fun j hj => ?_
    rw [Nat.add_assoc]
    exact h (i + j) (by omega)
  simp only [Header.stored, Header.peek, ReadBuffer.peek, ReadBuffer.retrieve_data,
    ReadBuffer.retrieve_readIndex]
  have hfirst := hpart 0 1 (by decide)
  rw [Nat.add_zero] at hfirst
  rw [hfirst, hpart 1 4 (by decide), hpart 5 1 (by decide), hpart 6 4 (by decide),
    hpart 10 4 (by decide)]

/-- Only the bytes of the record matter. -/
theorem Entry.stored_congr
    (h : ∀ i < (Entry.stored file o).size, file' (o + i) = file (o + i)) :
    Entry.stored file' o = Entry.stored file o := by
  have hsize := Entry.size_stored file o
  rw [Header.bodySize] at hsize
  have hheader : Header.stored file' o = Header.stored file o :=
    Header.stored_congr fun i hi => h i (by omega)
  have hpart : ∀ i k, i + k ≤ (Entry.stored file o).size →
      Padded.read file' (o + i) k = Padded.read file (o + i) k := by
    intro i k hik
    refine Padded.read_congr fun j hj => ?_
    rw [Nat.add_assoc]
    exact h (i + j) (by omega)
  simp only [Header.stored] at hheader hsize
  simp only [Entry.stored, Entry.peek, ReadBuffer.peek, ReadBuffer.retrieve_data,
    ReadBuffer.retrieve_readIndex, hheader]
  rw [hpart _ _ (by omega), hpart _ _ (by omega)]

end PedroDB
