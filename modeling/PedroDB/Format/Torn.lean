import Mathlib.Data.List.Induction
import Mathlib.Tactic.Ring
import PedroDB.Format.Record

/-!
# Torn records

When a process dies while it packs a record, a prefix of the record is in the file and
zeros are behind it. Read back, such a region holds no record or one record, which need
not be the one that was packed.

## Main definitions

* `Platform.BigEndian` — integers are stored with the most significant byte first
* `Entry.torn` — the record that a torn one is read back as

## Main results

* `Entry.torn_zero` — nothing is read back when nothing was packed
* `Entry.exists_torn` — what was packed is a storable record of the same type, and zeros
-/

namespace PedroDB

/-- The number that bytes spell out, the most significant one first. -/
def bigEndian (bs : Bytes) : ℕ := bs.foldl (fun n b => n * 256 + b.toNat) 0

/-- `RetrieveInt` reads the most significant byte first. -/
class Platform.BigEndian [Platform] : Prop where
  getU32_toNat : ∀ bs : Bytes, bs.length = 4 → (Platform.getU32 bs).toNat = bigEndian bs

section BigEndian

variable {bs cs : Bytes} {n : ℕ}

theorem bigEndian_concat (b : Byte) : bigEndian (bs ++ [b]) = bigEndian bs * 256 + b.toNat := by
  simp [bigEndian, List.foldl_append]

theorem bigEndian_append : bigEndian (bs ++ cs) = bigEndian bs * 256 ^ cs.length + bigEndian cs := by
  induction cs using List.reverseRecOn with
  | nil => simp [bigEndian]
  | append_singleton cs b ih =>
    rw [← List.append_assoc, bigEndian_concat, bigEndian_concat, ih, List.length_append,
      List.length_singleton, Nat.pow_succ]
    ring

theorem bigEndian_lt : bigEndian bs < 256 ^ bs.length := by
  induction bs using List.reverseRecOn with
  | nil => simp [bigEndian]
  | append_singleton bs b ih =>
    have := b.toNat_lt
    rw [bigEndian_concat, List.length_append, List.length_singleton, Nat.pow_succ]
    omega

/-- Bytes of one length that spell out one number are the same. -/
theorem bigEndian_inj (hlen : bs.length = cs.length) (h : bigEndian bs = bigEndian cs) :
    bs = cs := by
  induction bs using List.reverseRecOn generalizing cs with
  | nil => exact (List.length_eq_zero_iff.mp hlen.symm).symm
  | append_singleton bs b ih =>
    rcases List.eq_nil_or_concat cs with rfl | ⟨cs, c, rfl⟩
    · simp at hlen
    · have hb := b.toNat_lt
      have hc := c.toNat_lt
      rw [List.concat_eq_append, bigEndian_concat, bigEndian_concat] at h
      have hlast : b = c := UInt8.toNat_inj.mp (by omega)
      rw [ih (by simpa using hlen) (by omega), hlast, List.concat_eq_append]

theorem bigEndian_replicate : bigEndian (List.replicate n 0) = 0 := by
  induction n with
  | zero => rfl
  | succ n ih => rw [List.replicate_succ', bigEndian_concat, ih]; rfl

/-- Bytes that are lost make a number smaller. -/
theorem bigEndian_keep_le : bigEndian (Padded.keep 0 n bs) ≤ bigEndian bs := by
  have hsplit : bigEndian bs =
      bigEndian (bs.take n) * 256 ^ (bs.length - n) + bigEndian (bs.drop n) := by
    conv_lhs => rw [← List.take_append_drop n bs]
    rw [bigEndian_append, List.length_drop]
  rw [hsplit, Padded.keep, bigEndian_append, bigEndian_replicate, List.length_replicate]
  exact Nat.add_le_add_left (Nat.zero_le _) _

variable [Platform] [Platform.BigEndian]

theorem bigEndian_putU32 (x : UInt32) : bigEndian (Platform.putU32 x) = x.toNat := by
  rw [← Platform.BigEndian.getU32_toNat _ (Platform.length_putU32 x), Platform.getU32_putU32]

theorem putU32_getU32 (h : bs.length = 4) : Platform.putU32 (Platform.getU32 bs) = bs := by
  refine bigEndian_inj (by rw [Platform.length_putU32, h]) ?_
  rw [bigEndian_putU32, Platform.BigEndian.getU32_toNat bs h]

theorem getU32_keep_le (x : UInt32) :
    (Platform.getU32 (Padded.keep 0 n (Platform.putU32 x))).toNat ≤ x.toNat := by
  rw [Platform.BigEndian.getU32_toNat _ (by simp), ← bigEndian_putU32 x]
  exact bigEndian_keep_le

end BigEndian

namespace Entry

variable [Platform] {e : Entry} {cut : ℕ}

/-- The record that is read back when only `cut` bytes of `e` were packed. -/
def torn (e : Entry) (cut : ℕ) : Option Entry :=
  (unPack (ReadBuffer.ofBytes (Padded.keep 0 cut e.pack))).1

/-- A storable record is read back from the front of a buffer. -/
theorem Storable.unPack_ofBytes (h : e.Storable) (rest : Bytes) :
    (unPack (ReadBuffer.ofBytes (e.pack ++ rest))).1 = some e := by
  have hpeek : (ReadBuffer.ofBytes (e.pack ++ rest)).peek e.size = e.pack := by
    rw [← length_pack]
    exact Padded.read_ofList_prefix
  rw [h.unPack_eq (ReadBuffer.ofBytes_inBounds _) ?_ hpeek]
  simp [ReadBuffer.ofBytes, length_pack]

theorem torn_zero : e.torn 0 = none := by
  have hfirst : (ReadBuffer.ofBytes (Padded.keep 0 0 e.pack)).data 0 = 0 := by
    rw [Padded.keep_zero, ← List.nil_append (List.replicate _ _), ReadBuffer.ofBytes,
      Padded.ofList_append_replicate]
    rfl
  rw [torn, unPack_of_header (Header.unPack_of_kEmpty hfirst)]

/-- A record that was packed to its end is read back. -/
theorem Storable.torn_of_size_le (h : e.Storable) (hcut : e.size ≤ cut) : e.torn cut = some e := by
  rw [torn, Padded.keep_of_length_le (length_pack.le.trans hcut)]
  simpa using h.unPack_ofBytes []

/-- The cut header, with the sizes that are read from it. -/
def tornHeader (e : Entry) (cut : ℕ) : Header :=
  { checksum := Platform.getU32 (Padded.keep 0 (cut - 1) (Platform.putU32 e.header.checksum))
    type := e.type
    key_size := (Padded.keep 0 (cut - 5) [e.header.key_size]).headD 0
    value_size := Platform.getU32 (Padded.keep 0 (cut - 6) (Platform.putU32 e.header.value_size))
    timestamp := Platform.getU32 (Padded.keep 0 (cut - 10) (Platform.putU32 e.header.timestamp)) }

section Torn

variable [Platform.BigEndian]

/-- Once the type is there, the cut header is a header. -/
theorem keep_header (hcut : 0 < cut) :
    Padded.keep 0 cut e.header.pack = (e.tornHeader cut).pack := by
  have hpack : e.header.pack = [e.type.toByte] ++ (Platform.putU32 e.header.checksum ++
      ([e.header.key_size] ++ (Platform.putU32 e.header.value_size ++
        Platform.putU32 e.header.timestamp))) := rfl
  have hone : ∀ n, Padded.keep 0 n [e.header.key_size] =
      [(Padded.keep 0 n [e.header.key_size]).headD 0] := by
    intro n
    cases n <;> simp [Padded.keep]
  rw [hpack, Padded.keep_append, Padded.keep_append, Padded.keep_append, Padded.keep_append,
    Padded.keep_of_length_le (show ([e.type.toByte] : Bytes).length ≤ cut from hcut), hone]
  simp only [Header.pack, tornHeader, List.length_singleton, Platform.length_putU32, Nat.sub_sub,
    Nat.reduceAdd, putU32_getU32 (Padded.length_keep.trans (Platform.length_putU32 _)),
    List.singleton_append]

omit [Platform.BigEndian] in
theorem tornHeader_key_size_le (e : Entry) (cut : ℕ) :
    (e.tornHeader cut).key_size.toNat ≤ e.header.key_size.toNat := by
  simp only [tornHeader]
  cases hn : cut - 5 <;> simp [Padded.keep]

theorem tornHeader_value_size_le (e : Entry) (cut : ℕ) :
    (e.tornHeader cut).value_size.toNat ≤ e.header.value_size.toNat :=
  getU32_keep_le _

omit [Platform.BigEndian] in
/-- Once the sizes are there, they are those of the record. -/
theorem tornHeader_sizes (hcut : 10 ≤ cut) : (e.tornHeader cut).key_size = e.header.key_size ∧
    (e.tornHeader cut).value_size = e.header.value_size := by
  have hkey : ([e.header.key_size] : Bytes).length ≤ cut - 5 := by
    rw [List.length_singleton]
    omega
  have hvalue : (Platform.putU32 e.header.value_size).length ≤ cut - 6 := by
    rw [Platform.length_putU32]
    omega
  simp only [tornHeader, Padded.keep_of_length_le hkey, Padded.keep_of_length_le hvalue,
    List.headD_cons, Platform.getU32_putU32, and_self]

omit [Platform.BigEndian] in
/-- The body behind the cut header: what the sizes cover, and zeros. -/
theorem keep_body (cut : ℕ) (hs : e.Storable) :
    (Padded.keep 0 (cut - Header.sizeOf) (e.key ++ e.value)).drop
        ((e.tornHeader cut).key_size.toNat + (e.tornHeader cut).value_size.toNat) =
      List.replicate (e.key.length + e.value.length -
        ((e.tornHeader cut).key_size.toNat + (e.tornHeader cut).value_size.toNat)) 0 := by
  rcases Nat.lt_or_ge cut 10 with hlt | hge
  · have hzero : cut - Header.sizeOf = 0 := by
      rw [Header.sizeOf]
      omega
    rw [hzero, Padded.keep_zero, List.drop_replicate, List.length_append]
  · obtain ⟨hkey, hvalue⟩ := tornHeader_sizes (e := e) hge
    rw [hkey, hvalue, hs.keySize_eq, hs.valueSize_eq, Nat.sub_self, List.replicate_zero]
    exact List.drop_of_length_le (by simp)

/-- What was packed of a record is a storable record of the same type, and zeros. -/
theorem exists_torn (hs : e.Storable) (hcut : 0 < cut) : ∃ e', e.torn cut = some e' ∧
    e'.Storable ∧ e'.type = e.type ∧ e'.size ≤ e.size ∧
      Padded.keep 0 cut e.pack = e'.pack ++ List.replicate (e.size - e'.size) 0 := by
  obtain ⟨body, hbody⟩ : ∃ body,
      Padded.keep 0 (cut - Header.sizeOf) (e.key ++ e.value) = body := ⟨_, rfl⟩
  obtain ⟨h, hh⟩ : ∃ h, e.tornHeader cut = h := ⟨_, rfl⟩
  have htail := keep_body cut hs
  have hk := tornHeader_key_size_le e cut
  have hv := tornHeader_value_size_le e cut
  rw [hs.keySize_eq, hh] at hk
  rw [hs.valueSize_eq, hh] at hv
  rw [hbody, hh] at htail
  have hlen : body.length = e.key.length + e.value.length := by simp [← hbody]
  -- The record that the cut header frames.
  obtain ⟨e', he'⟩ : ∃ e' : Entry, e' =
      { checksum := h.checksum, type := e.type, key := body.take h.key_size.toNat,
        value := (body.drop h.key_size.toNat).take h.value_size.toNat,
        timestamp := h.timestamp } := ⟨_, rfl⟩
  have hkey : e'.key.length = h.key_size.toNat := by
    rw [he', List.length_take]
    omega
  have hvalue : e'.value.length = h.value_size.toNat := by
    rw [he', List.length_take, List.length_drop]
    omega
  have hsize : e'.size ≤ e.size := by
    simp only [Entry.size, hkey, hvalue]
    omega
  have hstorable : e'.Storable := ⟨he' ▸ hs.type, hkey ▸ hk.trans hs.key, hsize.trans hs.size⟩
  have hheader : e'.header = h := by
    have htype : h.type = e.type := by rw [← hh, tornHeader]
    rw [header, hkey, hvalue, UInt8.ofNat_toNat, UInt32.ofNat_toNat, he', ← htype]
  -- Behind the record that is framed there are only zero bytes.
  have hkeep : Padded.keep 0 cut e.pack = e'.pack ++ List.replicate (e.size - e'.size) 0 := by
    have hrest : e.size - e'.size = e.key.length + e.value.length -
        (h.key_size.toNat + h.value_size.toNat) := by
      simp only [Entry.size, hkey, hvalue]
      omega
    have hjoin : body = e'.key ++ (e'.value ++
        body.drop (h.key_size.toNat + h.value_size.toNat)) := by
      rw [he', ← List.drop_drop, List.take_append_drop, List.take_append_drop]
    rw [pack, List.append_assoc, Padded.keep_append, keep_header hcut, Header.length_pack, hbody,
      hh, pack, hheader, hrest, ← htail, List.append_assoc, List.append_assoc, ← hjoin]
  exact ⟨e', by rw [torn, hkeep]; exact hstorable.unPack_ofBytes _, hstorable, by rw [he'], hsize,
    hkeep⟩

end Torn

end Entry
end PedroDB
