import PedroDB.Stored
import PedroDB.Theorems.Scanners

/-!
# Scanning arbitrary bytes

Both readers of a data file take the two lengths of a header at their word, and add them in
32 bits to see whether the body is there. They stay inside the file as long as the sum does
not overflow.

## Main definitions

* `Clean` — no record reaches beyond `2 ^ 32`
* `ReadBuffer.Safe`, `ScanSafe` — what the decoder and the loops should satisfy
* `RecordIterator.Foreign` — a record is left in the buffer that the iterators share

## Main results

* `scanSafe_of_isLoop` — what a loop reports about a clean file
* `iteratorScan_short_iff` — an iterator over a file that is too short for a header
* `scans_safe_iff` — when the decoder and the loops are safe
-/

namespace PedroDB

section

variable [Platform] {file : Content} {o n m fuel : ℕ} {buffer : ReadBuffer}

/-- No record that the loop comes to reaches beyond `2 ^ 32`. -/
def Clean (file : Content) (m : ℕ) : Prop :=
  ∀ o, (walk file m).Reached o → (walk file m).starts o → o + (Entry.stored file o).size < 2 ^ 32

/-- The decoder fails or yields slices of the readable bytes, and the read position stays
inside. -/
def ReadBuffer.Safe (b : ReadBuffer) : Prop :=
  (Entry.unPack b).2.InBounds ∧ ∀ e, (Entry.unPack b).1 = some e →
    b.readIndex + e.size ≤ b.capacity ∧
      e.key = (b.retrieve Header.sizeOf).peek e.key.length ∧
      e.value = (b.retrieve (Header.sizeOf + e.key.length)).peek e.value.length

/-- If the body of the record fits by its 32-bit size, it fits. -/
def ReadBuffer.Clean (b : ReadBuffer) : Prop :=
  b.Starts → Header.sizeOf + (Header.peek b).bodySize ≤ b.readableBytes

/-- A loop over a file of `n` bytes, by its number of rounds: it ends, what it reports are
slices of the file behind their header, and the offsets strictly increase. -/
structure ScanSafe (file : Content) (n : ℕ) (loop : ℕ → List (ℕ × Entry)) : Prop where
  ends : ∃ rounds, ∀ more, rounds ≤ more → loop more = loop rounds
  inside : ∀ rounds, ∀ r ∈ loop rounds, r.1 + r.2.size ≤ n ∧
    r.2.key = Padded.read file (r.1 + Header.sizeOf) r.2.key.length ∧
    r.2.value = Padded.read file (r.1 + Header.sizeOf + r.2.key.length) r.2.value.length
  increasing : ∀ rounds, (loop rounds).Pairwise fun a b => a.1 < b.1

/-- The loop of `CreateFile`, on a file of `kMaxFileBytes` bytes. -/
def createScan (file : Content) (rounds : ℕ) : List (ℕ × Entry) :=
  createFrames 0 (ReadBuffer.collect Entry.unPack rounds
    { data := file, readIndex := 0, capacity := kMaxFileBytes })

/-- The loop of an iterator over a file of `n` bytes. -/
def iteratorScan (file : Content) (n : ℕ) (buffer : ReadBuffer) (rounds : ℕ) :
    List (ℕ × Entry) :=
  (RecordIterator.scan file rounds (RecordIterator.create n) buffer).1

/-! ### The decoder -/

theorem ReadBuffer.safe_iff {b : ReadBuffer} (hb : b.InBounds) : b.Safe ↔ b.Clean := by
  have hread := hb.readableBytes_eq
  have hin : b.readIndex ≤ b.capacity := hb
  by_cases hstarts : b.Starts
  · have hunPack := Entry.unPack_of_starts hb hstarts
    have hsize := Entry.size_peek (b := b)
    constructor
    · intro h _
      have hinside := (h.2 _ (by rw [hunPack])).1
      omega
    · intro h
      have hroom := h hstarts
      rw [ReadBuffer.Safe, hunPack]
      refine ⟨ReadBuffer.InBounds.retrieve (by omega), fun e he => ?_⟩
      obtain rfl := Option.some_inj.mp he
      refine ⟨by omega, ?_, ?_⟩
      · rw [Entry.length_peek_key]
        rfl
      · rw [Entry.length_peek_key, Entry.length_peek_value]
        rfl
  · obtain ⟨hnone, hrest⟩ := Entry.unPack_of_not_starts hb hstarts
    refine ⟨fun _ hs => absurd hs hstarts, fun _ => ⟨hrest, fun e he => ?_⟩⟩
    rw [hnone] at he
    cases he

/-! ### The loop of `CreateFile` -/

/-- `CreateFile` at offset `o`. -/
def CreateLoop (file : Content) (fuel o : ℕ) (l : List (ℕ × Entry)) : Prop :=
  o ≤ kMaxFileBytes ∧ l = createFrames o (ReadBuffer.collect Entry.unPack fuel
    { data := file, readIndex := o, capacity := kMaxFileBytes })

theorem createLoop_isLoop (file : Content) :
    (walk file kMaxFileBytes).IsLoop (fun o => o + (Entry.stored file o).size < 2 ^ 32)
      (CreateLoop file) where
  zero h := h.2
  stop := by
    intro fuel o l h hstarts
    have hb : ({ data := file, readIndex := o, capacity := kMaxFileBytes } :
      ReadBuffer).InBounds := h.1
    -- The decoder finds no record.
    have hnone := (Entry.unPack_of_not_starts hb ((starts_iff h.1).not.mpr hstarts)).1
    rw [h.2, ReadBuffer.collect_of_none hnone]
    rfl
  step := by
    intro fuel o l h hstarts hsound
    have hb : ({ data := file, readIndex := o, capacity := kMaxFileBytes } :
      ReadBuffer).InBounds := h.1
    -- It finds one, and goes on behind it.
    have hsome := Entry.unPack_of_starts hb ((starts_iff h.1).mpr hstarts)
    have hend := end_le_of_starts hstarts hsound
    refine ⟨_, ?_, hend, rfl⟩
    have hoffset : u32 (o + (Entry.stored file o).sizeOf) = o + (Entry.stored file o).size := by
      rw [Entry.sizeOf, u32_of_lt (Nat.lt_of_le_of_lt (Nat.le_add_left _ _) hsound),
        u32_of_lt hsound]
    rw [h.2, ReadBuffer.collect, hsome]
    simp only [createFrames]
    have hpeek : Entry.peek { data := file, readIndex := o, capacity := kMaxFileBytes } =
      Entry.stored file o := rfl
    rw [hpeek, hoffset]
    rfl

/-- What a loop that follows the walk reports about a clean file. -/
theorem scanSafe_of_isLoop {R : ℕ → ℕ → List (ℕ × Entry) → Prop} {loop : ℕ → List (ℕ × Entry)}
    (hloop : (walk file m).IsLoop (fun o => o + (Entry.stored file o).size < 2 ^ 32) R)
    (hR : ∀ rounds, R rounds 0 (loop rounds)) (hclean : Clean file m) (hmn : m ≤ n) :
    ScanSafe file n loop where
  ends := by
    refine ⟨m + 1, fun more hmore => ?_⟩
    exact hloop.stable hclean (fun o => end_le_of_starts) .start (hR more) (hR (m + 1))
      (by omega) (by omega)
  inside := by
    intro rounds r hr
    obtain ⟨-, hreached, hstarts, heq⟩ := (hloop.reports hclean (hR rounds) .start).1 r hr
    have hend := end_le_of_starts hstarts (hclean r.1 hreached hstarts)
    have hitem : r.2 = Entry.stored file r.1 := heq
    rw [hitem]
    exact ⟨hend.trans hmn, Entry.key_stored, Entry.value_stored⟩
  increasing rounds := (hloop.reports hclean (hR rounds) .start).2

theorem createScan_safe_iff (file : Content) :
    ScanSafe file kMaxFileBytes (createScan file) ↔ Clean file kMaxFileBytes := by
  have hR : ∀ rounds, CreateLoop file rounds 0 (createScan file rounds) :=
    fun rounds => ⟨Nat.zero_le _, rfl⟩
  constructor
  · intro h
    refine (createLoop_isLoop file).sound_of_reports Entry.size hR ?_ ?_
    · intro fuel o l hl hstarts
      have hb : ({ data := file, readIndex := o, capacity := kMaxFileBytes } :
        ReadBuffer).InBounds := hl.1
      have hsome := Entry.unPack_of_starts hb ((starts_iff hl.1).mpr hstarts)
      rw [hl.2, ReadBuffer.collect, hsome]
      exact ⟨Entry.stored file o, _, rfl, rfl⟩
    · intro rounds r hr _ hsize
      have hend := (h.inside rounds r hr).1
      rw [hsize, kMaxFileBytes] at hend
      exact Nat.lt_of_le_of_lt hend (by decide)
  · exact fun h => scanSafe_of_isLoop (createLoop_isLoop file) hR h le_rfl

/-! ### The loop of an iterator -/

namespace RecordIterator

variable {it : RecordIterator}

/-- An iterator over a file of `n` bytes, at offset `o`. -/
def Loop (file : Content) (n fuel o : ℕ) (l : List (ℕ × Entry)) : Prop :=
  ∃ (it : RecordIterator) (buffer : ReadBuffer), it.Stands buffer n o ∧
    l = (scan file fuel it buffer).1

/-- The iterator behind a record that it has yielded, and that does not reach beyond
`2 ^ 32`. -/
theorem Stands.next_of_sound (hstands : it.Stands buffer n o)
    (hstarts : (walk file (n - 1)).starts o)
    (hsound : o + (Entry.stored file o).size < 2 ^ 32) :
    ∃ it' buffer', it.valid file buffer = (true, it', buffer') ∧ it'.getOffset = o ∧
      it'.entry = Entry.stored file o ∧
      it'.next.2.Stands buffer' n (o + (Entry.stored file o).size) ∧ Spent buffer' := by
  obtain ⟨e, buffer', hvalid, -, hentry, hspent⟩ := valid_of_starts hstands hstarts
  have hsize := Entry.size_stored file o
  obtain rfl := hentry (by omega)
  refine ⟨_, buffer', hvalid, ?_, rfl, ⟨?_, ?_, hstands.size, Or.inr hspent⟩, hspent⟩
  · rw [getOffset, hstands.index]
    exact u32_of_lt (by omega)
  · simp only [RecordIterator.next, hstands.index, Entry.sizeOf]
    rw [u32_of_lt (by omega)]
  · simp only [RecordIterator.next]
    rw [u32_of_lt (by omega), hsize, Nat.add_assoc]

theorem isLoop (file : Content) (n : ℕ) :
    (walk file (n - 1)).IsLoop (fun o => o + (Entry.stored file o).size < 2 ^ 32)
      (Loop file n) where
  zero := by
    rintro o l ⟨it, buffer, -, rfl⟩
    rfl
  stop := by
    rintro fuel o l ⟨it, buffer, hstands, rfl⟩ hstarts
    obtain ⟨it', buffer', hvalid, -⟩ := valid_of_not_starts hstands hstarts
    rw [scan, hvalid]
  step := by
    rintro fuel o l ⟨it, buffer, hstands, rfl⟩ hstarts hsound
    obtain ⟨it', buffer', hvalid, hoffset, hentry, hnext, -⟩ :=
      hstands.next_of_sound hstarts hsound
    refine ⟨_, ?_, it'.next.2, buffer', hnext, rfl⟩
    rw [scan, hvalid]
    simp only [hoffset, RecordIterator.next, hentry]
    rfl

/-- A scan of a clean file leaves nothing in the buffer that the next one could decode. -/
theorem spent_scan (hclean : Clean file (n - 1)) (hreached : (walk file (n - 1)).Reached o)
    (hstands : it.Stands buffer n o) (hspent : Spent buffer) :
    Spent (scan file fuel it buffer).2 := by
  induction fuel generalizing o it buffer with
  | zero => exact hspent
  | succ fuel ih =>
    by_cases hstarts : (walk file (n - 1)).starts o
    · obtain ⟨it', buffer', hvalid, -, -, hnext, hspent'⟩ :=
        hstands.next_of_sound hstarts (hclean o hreached hstarts)
      rw [scan, hvalid]
      exact ih (hreached.step hstarts) hnext hspent'
    · obtain ⟨it', buffer', hvalid, hspent'⟩ := valid_of_not_starts hstands hstarts
      rw [scan, hvalid]
      exact hspent'

omit [Platform] in
theorem stands_create (hready : Header.sizeOf < n ∨ Spent buffer) :
    (create n).Stands buffer n 0 :=
  ⟨rfl, rfl, rfl, by rwa [Nat.zero_add]⟩

end RecordIterator

theorem iteratorScan_safe (hready : Header.sizeOf < n ∨ RecordIterator.Spent buffer)
    (hclean : Clean file (n - 1)) :
    ScanSafe file n (iteratorScan file n buffer) :=
  scanSafe_of_isLoop (RecordIterator.isLoop file n)
    (fun _ => ⟨_, buffer, RecordIterator.stands_create hready, rfl⟩) hclean (Nat.sub_le n 1)

theorem clean_of_iteratorScan (hready : Header.sizeOf < n ∨ RecordIterator.Spent buffer)
    (hn : n ≤ 2 ^ 32) (h : ScanSafe file n (iteratorScan file n buffer)) : Clean file (n - 1) := by
  have hR : ∀ rounds, RecordIterator.Loop file n rounds 0 (iteratorScan file n buffer rounds) :=
    fun _ => ⟨_, buffer, RecordIterator.stands_create hready, rfl⟩
  refine (RecordIterator.isLoop file n).sound_of_reports Entry.size hR ?_ ?_
  · rintro fuel o l ⟨it, buffer', hstands, rfl⟩ hstarts
    obtain ⟨e, rest, hvalid, hsize, -⟩ := RecordIterator.valid_of_starts hstands hstarts
    have ho : o < 2 ^ 32 := by
      have := hstarts.2
      omega
    obtain ⟨l', hl'⟩ : ∃ l', (RecordIterator.scan file (fuel + 1) it buffer').1 =
        (u32 it.index, e) :: l' := by
      rw [RecordIterator.scan, hvalid]
      exact ⟨_, rfl⟩
    refine ⟨e, l', ?_, hsize⟩
    rw [hl', hstands.index, u32_of_lt ho]
  · intro rounds r hr hstarts hsize
    have hend := (h.inside rounds r hr).1
    have hmeasure : r.2.size = (Entry.stored file r.1).size := hsize
    have hstored := Entry.size_stored file r.1
    have hroom := hstarts.2
    by_cases hbody : (Header.stored file r.1).bodySize < 2 ^ 32
    · rw [u32_of_lt hbody] at hroom
      omega
    · have hpos : 0 < Header.sizeOf := by decide
      omega

/-! ### A file that is too short for a header -/

namespace RecordIterator

/-- The header of a record is left in the buffer, and its body is there by its 32-bit size: in the
file of `n` bytes, from its front on, or else behind the header. -/
def Foreign (buffer : ReadBuffer) (n : ℕ) : Prop :=
  ¬ Spent buffer ∧ (u32 (Header.peek buffer).bodySize < n ∨
    u32 (Header.peek buffer).bodySize ≤ (buffer.retrieve Header.sizeOf).readableBytes)

variable {it : RecordIterator} {header : Header}

omit [Platform] in
theorem fetch_size : (it.fetch file buffer n).1.size = it.size := by
  unfold fetch
  split_ifs
  · rfl
  · rfl

omit [Platform] in
/-- The body of the record is there, once it is fetched. -/
theorem validBody_of_le
    (h : u32 header.bodySize ≤ (it.fetch file buffer (u32 header.bodySize)).2.readableBytes) :
    ∃ it' buffer', it.validBody file buffer header = (true, it', buffer') ∧
      it'.index = it.index ∧ it'.size = it.size ∧
      it'.entry.size = Header.sizeOf + header.bodySize := by
  have hindex : (it.fetch file buffer (u32 header.bodySize)).1.index = it.index := fetch_index
  have hsize : (it.fetch file buffer (u32 header.bodySize)).1.size = it.size := fetch_size
  refine ⟨_, _, if_neg (Nat.not_lt.mpr h), hindex, hsize, ?_⟩
  rw [Entry.size, ReadBuffer.length_peek, ReadBuffer.length_peek, Header.bodySize, Nat.add_assoc]

omit [Platform] in
theorem fetch_short (file : Content) (buffer : ReadBuffer) (hn : n ≤ Header.sizeOf) :
    (create n).fetch file buffer Header.sizeOf = (create n, buffer) :=
  fetch_of_le (hn.trans (Nat.le_add_left _ _))

/-- Nothing is fetched, and the header is decoded from what is left in the buffer. -/
theorem valid_short (hn : n ≤ Header.sizeOf) (hpos : 0 < n) (hspent : ¬ Spent buffer) :
    (create n).valid file buffer =
      (create n).validBody file (buffer.retrieve Header.sizeOf) (Header.peek buffer) := by
  have hindex : ¬ (create n).size ≤ (create n).index := Nat.not_le.mpr hpos
  rcases Header.unPack_cases buffer with ⟨hno, -⟩ | ⟨-, hsome⟩
  · exact absurd hno hspent
  · rw [valid, if_neg hindex, fetch_short file buffer hn]
    simp only [hsome]

theorem valid_of_foreign (file : Content) (hn : n ≤ Header.sizeOf) (hpos : 0 < n)
    (hforeign : Foreign buffer n) :
    ∃ it' buffer', (create n).valid file buffer = (true, it', buffer') ∧ it'.index = 0 ∧
      it'.size = n ∧ it'.entry.size = Header.sizeOf + (Header.peek buffer).bodySize := by
  obtain ⟨hspent, hbody⟩ := hforeign
  rw [valid_short hn hpos hspent]
  apply validBody_of_le
  rcases Nat.lt_or_ge (u32 (Header.peek buffer).bodySize) n with hfits | hfits
  · -- The body is read from the front of the file.
    rw [fetch_of_lt ((Nat.zero_add _).trans_lt hfits),
      (ReadBuffer.ofBytes_inBounds _).readableBytes_eq]
    exact Padded.length_read.ge
  · rw [fetch_of_le (hfits.trans_eq (Nat.zero_add _).symm)]
    exact hbody.resolve_left (Nat.not_lt.mpr hfits)

theorem valid_of_not_foreign (file : Content) (hn : n ≤ Header.sizeOf)
    (hforeign : 0 < n → ¬ Foreign buffer n) :
    ((create n).valid file buffer).1 = false := by
  rcases Nat.eq_zero_or_pos n with rfl | hpos
  · rfl
  by_cases hspent : Spent buffer
  · have hindex : ¬ (create n).size ≤ (create n).index := Nat.not_le.mpr hpos
    rw [valid, if_neg hindex, fetch_short file buffer hn]
    simp only [hspent.unPack]
  · -- Neither the file nor the buffer has the body.
    obtain ⟨hfile, hrest⟩ := not_or.mp fun h => hforeign hpos ⟨hspent, h⟩
    have hfetch : (create n).fetch file (buffer.retrieve Header.sizeOf)
        (u32 (Header.peek buffer).bodySize) = (create n, buffer.retrieve Header.sizeOf) :=
      fetch_of_le ((Nat.not_lt.mp hfile).trans_eq (Nat.zero_add _).symm)
    rw [Header.bodySize] at hfetch hrest
    rw [valid_short hn hpos hspent]
    simp only [validBody, hfetch]
    rw [if_pos (Nat.not_le.mp hrest)]

theorem scan_of_end (hend : it.size ≤ it.index) (fuel : ℕ) : (scan file fuel it buffer).1 = [] := by
  cases fuel with
  | zero => rfl
  | succ fuel => rw [scan, valid, if_pos hend]

end RecordIterator

theorem iteratorScan_of_not_foreign (file : Content) (hn : n ≤ Header.sizeOf)
    (hforeign : 0 < n → ¬ RecordIterator.Foreign buffer n) (rounds : ℕ) :
    iteratorScan file n buffer rounds = [] := by
  cases rounds with
  | zero => rfl
  | succ rounds =>
    have hvalid := RecordIterator.valid_of_not_foreign file hn hforeign
    rcases heq : (RecordIterator.create n).valid file buffer with ⟨ok, it, rest⟩
    rw [heq] at hvalid
    obtain rfl : ok = false := hvalid
    rw [iteratorScan, RecordIterator.scan, heq]

/-- A single empty record is reported, and is as long as the file. -/
theorem exists_iteratorScan_of_foreign (file : Content) (hn : n = Header.sizeOf)
    (hforeign : RecordIterator.Foreign buffer n) (hempty : (Header.peek buffer).bodySize = 0) :
    ∃ e, e.size = n ∧ e.key = [] ∧ e.value = [] ∧
      ∀ rounds, iteratorScan file n buffer (rounds + 1) = [(0, e)] := by
  obtain ⟨it, rest, hvalid, hindex, hlen, hsize⟩ :=
    RecordIterator.valid_of_foreign file hn.le (hn ▸ by decide) hforeign
  rw [hempty, Nat.add_zero] at hsize
  have hend : it.next.2.size ≤ it.next.2.index := by
    simp only [RecordIterator.next, hindex, hlen, Entry.sizeOf, hsize, hn]
    decide
  have hoffset : it.getOffset = 0 := by
    rw [RecordIterator.getOffset, hindex]
    rfl
  refine ⟨it.entry, hsize.trans hn.symm, ?_, ?_, fun rounds => ?_⟩
  · rw [← List.length_eq_zero_iff]
    rw [Entry.size] at hsize
    omega
  · rw [← List.length_eq_zero_iff]
    rw [Entry.size] at hsize
    omega
  · rw [iteratorScan, RecordIterator.scan, hvalid, ← hoffset]
    exact congrArg _ (RecordIterator.scan_of_end hend rounds)

/-- On such a file the iterator reports what earlier ones have left in the buffer. -/
theorem iteratorScan_short_iff (hn : n ≤ Header.sizeOf) :
    ScanSafe file n (iteratorScan file n buffer) ↔
      (0 < n → RecordIterator.Foreign buffer n →
        n = Header.sizeOf ∧ (Header.peek buffer).bodySize = 0) := by
  constructor
  · intro h hpos hforeign
    obtain ⟨it, rest, hvalid, -, -, hsize⟩ :=
      RecordIterator.valid_of_foreign file hn hpos hforeign
    have hmem : (it.getOffset, it.entry) ∈ iteratorScan file n buffer 1 := by
      rw [iteratorScan, RecordIterator.scan, hvalid]
      exact List.mem_cons_self
    have hend : it.getOffset + it.entry.size ≤ n := (h.inside 1 _ hmem).1
    omega
  · intro h
    by_cases hforeign : 0 < n ∧ RecordIterator.Foreign buffer n
    · obtain ⟨hfull, hempty⟩ := h hforeign.1 hforeign.2
      obtain ⟨e, hsize, hkey, hvalue, hscan⟩ :=
        exists_iteratorScan_of_foreign file hfull hforeign.2 hempty
      refine ⟨⟨1, fun more hmore => ?_⟩, fun rounds r hr => ?_, fun rounds => ?_⟩
      · obtain ⟨k, rfl⟩ := Nat.exists_eq_add_of_le' hmore
        rw [hscan, hscan 0]
      · cases rounds with
        | zero => cases hr
        | succ rounds =>
          rw [hscan, List.mem_singleton] at hr
          subst hr
          exact ⟨by rw [hsize, Nat.zero_add], by simp [hkey], by simp [hvalue]⟩
      · cases rounds with
        | zero => exact List.Pairwise.nil
        | succ rounds =>
          rw [hscan]
          exact List.pairwise_singleton _ _
    · have hnone : ∀ rounds, iteratorScan file n buffer rounds = [] :=
        iteratorScan_of_not_foreign file hn fun hpos hf => hforeign ⟨hpos, hf⟩
      refine ⟨⟨0, fun more _ => by rw [hnone, hnone]⟩, fun rounds r hr => ?_, fun rounds => ?_⟩
      · rw [hnone] at hr
        cases hr
      · rw [hnone]
        exact List.Pairwise.nil

/-- When scanning arbitrary bytes is safe. `UnPack` is if the body fits whenever it does by its
32-bit size; the loop of `CreateFile`, and that of an iterator over at most `2 ^ 32` bytes,
exactly if no record that they come to reaches beyond `2 ^ 32`; and an iterator over a longer
file, too, if that is so. Unless the file has a header's size at most, it does not matter what
earlier iterators have left in the buffer; in such a file the iterator finds nothing else. -/
theorem scans_safe_iff (file : Content) :
    (∀ b : ReadBuffer, b.InBounds → (b.Safe ↔ b.Clean)) ∧
      (ScanSafe file kMaxFileBytes (createScan file) ↔ Clean file kMaxFileBytes) ∧
      ∀ n buffer, (Header.sizeOf < n ∨ RecordIterator.Spent buffer →
        (n ≤ 2 ^ 32 → (ScanSafe file n (iteratorScan file n buffer) ↔ Clean file (n - 1))) ∧
        (Clean file (n - 1) → ScanSafe file n (iteratorScan file n buffer) ∧
          (RecordIterator.Spent buffer → ∀ rounds, RecordIterator.Spent
            (RecordIterator.scan file rounds (RecordIterator.create n) buffer).2))) ∧
        (n ≤ Header.sizeOf → (ScanSafe file n (iteratorScan file n buffer) ↔
          (0 < n → RecordIterator.Foreign buffer n →
            n = Header.sizeOf ∧ (Header.peek buffer).bodySize = 0))) := by
  refine ⟨fun b hb => ReadBuffer.safe_iff hb, createScan_safe_iff file, fun n buffer =>
    ⟨fun hready => ⟨?_, fun hclean => ⟨?_, fun hspent rounds => ?_⟩⟩, iteratorScan_short_iff⟩⟩
  · exact fun hn => ⟨clean_of_iteratorScan hready hn, iteratorScan_safe hready⟩
  · exact iteratorScan_safe hready hclean
  · exact RecordIterator.spent_scan hclean .start (RecordIterator.stands_create hready) hspent

end

open scoped Reference

/-- A header whose two lengths add up to `2 ^ 32`. -/
def wideHeader : Content :=
  Padded.ofList 0 [1, 0, 0, 0, 0, 1, 255, 255, 255, 255, 0, 0, 0, 0]

theorem not_clean_wideHeader {m : ℕ} (hm : Header.sizeOf ≤ m) : ¬ Clean wideHeader m := by
  have hbody : (Header.stored wideHeader 0).bodySize = 2 ^ 32 := by decide +kernel
  have hstarts : (walk wideHeader m).starts 0 := by
    refine ⟨by decide, ?_⟩
    rw [hbody, Nat.zero_add]
    exact hm
  intro h
  have hsound := h 0 .start hstarts
  rw [Entry.size_stored, hbody] at hsound
  omega

/-- Two records, and a header of an unknown type whose value would end behind the file. -/
def corrupt : Content :=
  Padded.ofList 0 (packAll [⟨0, .kSet, [107], [1], 0⟩, ⟨0, .kDelete, [108], [], 0⟩] ++
    [9, 0, 0, 0, 0, 1, 255, 255, 255, 0, 0, 0, 0, 0])

theorem reached_corrupt (h : (walk corrupt m).Reached o) (hm : m ≤ kMaxFileBytes) :
    o = 0 ∨ o = 16 ∨ o = 31 := by
  have hfirst : (Entry.stored corrupt 0).size = 16 := by decide +kernel
  have hsecond : (Entry.stored corrupt 16).size = 15 := by decide +kernel
  have hbody : kMaxFileBytes < u32 (Header.stored corrupt 31).bodySize := by decide +kernel
  induction h with
  | start => exact Or.inl rfl
  | @step o _ hstarts ih =>
    change o + (Entry.stored corrupt o).size = _ ∨ o + (Entry.stored corrupt o).size = _ ∨
      o + (Entry.stored corrupt o).size = _
    rcases ih with rfl | rfl | rfl
    · omega
    · omega
    · -- The loop stops at the third header.
      have hfits := hstarts.2
      omega

theorem clean_corrupt (hm : m ≤ kMaxFileBytes) : Clean corrupt m := by
  intro o hreached hstarts
  rcases reached_corrupt hreached hm with rfl | rfl | rfl
  · decide +kernel
  · decide +kernel
  · have hbody : kMaxFileBytes < u32 (Header.stored corrupt 31).bodySize := by decide +kernel
    have hfits := hstarts.2
    omega

/-- What an earlier iterator has left behind. -/
def leftovers : ReadBuffer := { data := Padded.ofList 0 [1, 2, 3], readIndex := 0, capacity := 3 }

/-- Both loops find the two records, and stop. -/
theorem scans_safe_iff_corrupt :
    ({ data := corrupt, readIndex := 16, capacity := kMaxFileBytes } : ReadBuffer).Safe ∧
      ScanSafe corrupt kMaxFileBytes (createScan corrupt) ∧
      (createScan corrupt 3).map Prod.fst = [0, 16] ∧
      ScanSafe corrupt kMaxFileBytes (iteratorScan corrupt kMaxFileBytes leftovers) ∧
      (iteratorScan corrupt kMaxFileBytes leftovers 3).map Prod.fst = [0, 16] := by
  obtain ⟨hunPack, hcreate, hiterator⟩ := scans_safe_iff corrupt
  have hinside : ({ data := corrupt, readIndex := 16, capacity := kMaxFileBytes } :
    ReadBuffer).InBounds := show 16 ≤ kMaxFileBytes by decide
  refine ⟨(hunPack _ hinside).mpr fun _ => by decide +kernel,
    hcreate.mpr (clean_corrupt le_rfl), by decide +kernel, ?_, by decide +kernel⟩
  exact (((hiterator kMaxFileBytes leftovers).1 (Or.inl (by decide))).1 (by decide)).mpr
    (clean_corrupt (Nat.sub_le _ _))

/-- Neither loop is safe on a header whose lengths overflow. -/
theorem exists_not_scanSafe : ∃ file : Content,
    ¬ ScanSafe file kMaxFileBytes (createScan file) ∧
      ¬ ScanSafe file kMaxFileBytes (iteratorScan file kMaxFileBytes ReadBuffer.empty) := by
  refine ⟨wideHeader, fun h => ?_, fun h => ?_⟩
  · exact not_clean_wideHeader (by decide) ((createScan_safe_iff wideHeader).mp h)
  · exact not_clean_wideHeader (by decide)
      (clean_of_iteratorScan (Or.inl (by decide)) (by decide) h)

end PedroDB
