import PedroDB.Format.Decoding
import PedroDB.Reference
import PedroDB.Session
import PedroDB.Rollover

/-!
# The record of a write

`HandlePut` compares `SizeOf()`, a 32-bit sum, with the size of a file. Nothing limits the
key, whose length the header keeps in one byte.

## Main definitions

* `Entry.RoundTrips` — a packed record is read back
* `Entry.Contained` — packing stays in the region that was reserved

## Main results

* `DBImpl.roundTrips_iff` — the writes whose record is read back
* `DBImpl.contained_iff` — the writes whose record stays in its region
-/

namespace PedroDB

section

variable [Platform] {opt : Options} {e next : Entry}

/-- What `Pack` writes into a region of `SizeOf()` bytes is valid and read back, whatever
follows it, and the reader stands at the end of the region. -/
def Entry.RoundTrips (e : Entry) : Prop :=
  e.validate = true ∧ ∃ bytes, e.packInto e.sizeOf = some bytes ∧ bytes.length = e.sizeOf ∧
    ∀ rest, Entry.unPack (ReadBuffer.ofBytes (bytes ++ rest)) =
      (some e, (ReadBuffer.ofBytes (bytes ++ rest)).retrieve e.sizeOf)

/-- `Pack` writes as many bytes as were reserved, all that the record needs, and the region
is inside the file. -/
def Entry.Contained (e : Entry) (loc : Location) : Prop :=
  ∃ bytes, e.packInto e.sizeOf = some bytes ∧ bytes.length = e.sizeOf ∧
    loc.offset + e.sizeOf ≤ kMaxFileBytes ∧
    Header.sizeOf + e.key.length + e.value.length ≤ e.sizeOf

namespace Entry

/-- A storable record is read back from the front of a buffer. -/
theorem Storable.unPack_append (h : e.Storable) (rest : Bytes) :
    Entry.unPack (ReadBuffer.ofBytes (e.pack ++ rest)) =
      (some e, (ReadBuffer.ofBytes (e.pack ++ rest)).retrieve e.size) := by
  refine h.unPack_eq (ReadBuffer.ofBytes_inBounds _) ?_ ?_
  · simp [ReadBuffer.ofBytes, e.length_pack]
  · rw [← e.length_pack]
    exact Padded.read_ofList_prefix

/-- The record behind one that is read back is found. -/
theorem RoundTrips.unPack_next (h : e.RoundTrips) (hnext : next.Storable) (rest : Bytes) :
    ∃ bytes, e.packInto e.sizeOf = some bytes ∧
      ∃ b, Entry.unPack (ReadBuffer.ofBytes (bytes ++ (next.pack ++ rest))) = (some e, b) ∧
        (Entry.unPack b).1 = some next := by
  obtain ⟨-, bytes, hpack, hlen, hread⟩ := h
  refine ⟨bytes, hpack, _, hread (next.pack ++ rest), ?_⟩
  have hpeek : ((ReadBuffer.ofBytes (bytes ++ (next.pack ++ rest))).retrieve e.sizeOf).peek
      next.size = next.pack := by
    rw [ReadBuffer.peek, ReadBuffer.retrieve_readIndex, ← List.append_assoc]
    exact Padded.read_ofList_middle (by simp [ReadBuffer.ofBytes, hlen]) next.length_pack
  rw [hnext.unPack_eq _ _ hpeek]
  · simp [ReadBuffer.InBounds, ReadBuffer.ofBytes, hlen]
  · simp [ReadBuffer.ofBytes, hlen, next.length_pack]

/-- What is read back has lengths that the header can represent. -/
theorem RoundTrips.lengths (h : e.RoundTrips) : e.key.length ≤ 255 ∧ e.size < 2 ^ 32 := by
  obtain ⟨-, bytes, -, -, hread⟩ := h
  obtain ⟨-, he, hrest⟩ := Entry.of_unPack_eq_some (hread [])
  refine ⟨he ▸ Entry.length_peek_key_le, ?_⟩
  have hindex : e.sizeOf = e.size := by
    have := congrArg ReadBuffer.readIndex hrest
    simpa using this
  rw [← hindex]
  exact Nat.mod_lt _ (by decide)

theorem Storable.roundTrips (h : e.Storable) (hvalid : e.validate = true) : e.RoundTrips := by
  refine ⟨hvalid, e.pack, ?_, h.sizeOf_eq ▸ e.length_pack, fun rest => ?_⟩
  · exact packInto_of_le le_rfl (h.sizeOf_eq ▸ headerSize_le_size)
  · rw [h.sizeOf_eq]
    exact h.unPack_append rest

omit [Platform] in
/-- `SizeOf()` is the length of the encoding exactly if that fits in 32 bits. -/
theorem size_le_sizeOf_iff : e.size ≤ e.sizeOf ↔ e.size < 2 ^ 32 := by
  constructor
  · intro h
    exact h.trans_lt (Nat.mod_lt _ (by decide))
  · intro h
    exact (u32_of_lt h).ge

theorem Contained.size_lt {loc : Location} (h : e.Contained loc) : e.size < 2 ^ 32 := by
  obtain ⟨bytes, -, -, -, hsize⟩ := h
  exact size_le_sizeOf_iff.mp hsize

end Entry

namespace DBImpl

variable {db : DBImpl} {w : Write}

theorem of_prepare_eq_ok (h : prepare opt w db = .ok e) :
    e = entryOf opt w ∧ e.sizeOf ≤ kMaxFileBytes := by
  unfold prepare at h
  split_ifs at h with hro hbig
  cases h
  exact ⟨rfl, not_lt.mp hbig⟩

/-- A write that is accepted has a record that is read back exactly if its key has at most 255
bytes and the encoding fewer than `2 ^ 32`. -/
theorem roundTrips_iff (h : prepare opt w db = .ok e) :
    e.RoundTrips ↔ w.key.length ≤ 255 ∧
      Header.sizeOf + w.key.length + (stored opt w.value).length < 2 ^ 32 := by
  obtain ⟨rfl, hle⟩ := of_prepare_eq_ok h
  constructor
  · exact fun hround => hround.lengths
  · rintro ⟨hkey, hsize⟩
    have hsizeOf : (entryOf opt w).sizeOf = (entryOf opt w).size := u32_of_lt hsize
    exact (entryOf_storable hkey (hsizeOf ▸ hle)).roundTrips entryOf_validate

/-- A write that is accepted, and whose record `Append` places, has a record that stays in its
region exactly if the encoding has fewer than `2 ^ 32` bytes. -/
theorem contained_iff {L : Log} {opens : OpenData} {loc : Location} {fm' : FileManager}
    (hkeeps : db.fileManager.Keeps L) (h : prepare opt w db = .ok e)
    (happend : db.fileManager.append opens e = some (.kOk, loc, fm')) :
    e.Contained loc ↔
      Header.sizeOf + w.key.length + (stored opt w.value).length < 2 ^ 32 := by
  obtain ⟨rfl, -⟩ := of_prepare_eq_ok h
  obtain ⟨fm₁, L₁, hkeeps₁, -, -, hcases⟩ := hkeeps.appendLoop_cases happend
  obtain ⟨-, hallocate⟩ := hcases.resolve_right fun hfail => hfail.1 rfl
  have hroom : loc.offset + (entryOf opt w).sizeOf ≤ kMaxFileBytes := by
    have hle : (fm₁.dataFiles fm₁.activeFileId).writeIndex ≤ kMaxFileBytes :=
      hkeeps₁.activeOffset_le
    simp only [FileManager.allocatePack, hkeeps₁.capture_eq, sub64_of_le hle] at hallocate
    split_ifs at hallocate with hfull
    simp only [Option.some.injEq, Prod.mk.injEq] at hallocate
    rw [← hallocate.1]
    dsimp only
    omega
  constructor
  · exact fun hcontained => hcontained.size_lt
  · intro hsize
    have hsizeOf : (entryOf opt w).sizeOf = (entryOf opt w).size := u32_of_lt hsize
    refine ⟨(entryOf opt w).pack, ?_, hsizeOf ▸ Entry.length_pack, hroom, hsizeOf.ge⟩
    exact Entry.packInto_of_le le_rfl (hsizeOf ▸ Entry.headerSize_le_size)

end DBImpl

end

namespace DBImpl

open scoped Reference

theorem roundTrips_iff_put :
    prepare Reference.options (.put [107] [1]) (Session.newDb Reference.options []) =
        .ok (entryOf Reference.options (.put [107] [1])) ∧
      ((entryOf Reference.options (.put [107] [1])).RoundTrips ↔
        ([107] : Key).length ≤ 255 ∧
          Header.sizeOf + ([107] : Key).length +
            (stored Reference.options [1]).length < 2 ^ 32) := by
  have hprepare : prepare Reference.options (.put [107] [1])
      (Session.newDb Reference.options []) = .ok (entryOf Reference.options (.put [107] [1])) := rfl
  exact ⟨hprepare, roundTrips_iff hprepare⟩

/-- A key of 256 bytes is accepted, and its record is not read back. -/
theorem exists_not_roundTrips : ∃ w e,
    prepare Reference.options w (Session.newDb Reference.options []) = .ok e ∧ ¬ e.RoundTrips := by
  have hlen : (entryOf Reference.options (.put (List.replicate 256 0) [1])).key.length = 256 :=
    List.length_replicate
  have hsize : (entryOf Reference.options (.put (List.replicate 256 0) [1])).size = 271 := by
    rw [Entry.size, hlen]
    rfl
  refine ⟨.put (List.replicate 256 0) [1], _, prepare_of_le rfl ?_, fun hround => ?_⟩
  · rw [Entry.sizeOf, hsize]
    decide
  · have hkey := hround.lengths.1
    omega

theorem contained_iff_put : ∃ loc fm,
    (Session.newDb Reference.options []).fileManager.append .sound
        (entryOf Reference.options (.put [107] [1])) = some (.kOk, loc, fm) ∧
      ((entryOf Reference.options (.put [107] [1])).Contained loc ↔
        Header.sizeOf + ([107] : Key).length +
          (stored Reference.options [1]).length < 2 ^ 32) := by
  have hholds : (Session.newDb Reference.options []).fileManager.Holds fun _ => [] :=
    Session.newFiles_holds
  have happend := hholds.append_eq (e := entryOf Reference.options (.put [107] [1])) (by decide)
    (by decide)
  exact ⟨_, _, happend, contained_iff (w := .put [107] [1]) hholds.toLaid.keeps rfl happend⟩

/-- A value of 4 GiB is accepted into a region of 15 bytes. -/
theorem exists_not_contained : ∃ w e loc fm,
    prepare Reference.options w (Session.newDb Reference.options []) = .ok e ∧
      (Session.newDb Reference.options []).fileManager.append .sound e = some (.kOk, loc, fm) ∧
      e.sizeOf = 15 ∧ ¬ e.Contained loc := by
  obtain ⟨n, hn⟩ : ∃ n, n = 2 ^ 32 := ⟨2 ^ 32, rfl⟩
  obtain ⟨e, he⟩ : ∃ e, e = entryOf Reference.options (.put [107] (List.replicate n 0)) := ⟨_, rfl⟩
  have hsize : e.size = 15 + n := by
    rw [he]
    change 14 + 1 + (List.replicate n (0 : Byte)).length = 15 + n
    rw [List.length_replicate]
  -- The size wraps around.
  have hsizeOf : e.sizeOf = 15 := by
    rw [Entry.sizeOf, hsize, hn]
    rfl
  -- So the check of `HandlePut` lets it pass.
  have hprepare : prepare Reference.options (.put [107] (List.replicate n 0))
      (Session.newDb Reference.options []) = .ok e := by
    rw [he] at hsizeOf ⊢
    refine prepare_of_le rfl ?_
    rw [hsizeOf]
    decide
  -- And the allocation finds room for it.
  obtain ⟨loc, fm, happend⟩ : ∃ loc fm,
      (Session.newDb Reference.options []).fileManager.append .sound e =
        some (.kOk, loc, fm) := by
    obtain ⟨m, hm⟩ : ∃ m, 2 ^ 32 + 1 = m + 1 := ⟨2 ^ 32, rfl⟩
    have hoffset : (Session.newDb Reference.options []).fileManager.activeOffset = 0 := rfl
    rw [FileManager.append, hm, FileManager.appendLoop, FileManager.allocatePack, hsizeOf,
      if_neg (by decide)]
    exact ⟨_, _, rfl⟩
  refine ⟨_, e, loc, fm, hprepare, happend, hsizeOf, fun hcontained => ?_⟩
  have := hcontained.size_lt
  omega

end DBImpl

end PedroDB
