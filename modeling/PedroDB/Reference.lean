import PedroDB.Format.Record

/-!
# A platform to run the model on

Big-endian integers, as `htobe` writes them, a polynomial hash, and a compression that
puts one byte in front.

## Main definitions

* `Reference.platform`
* `Reference.options`
* `Reference.filler` — a record of any size
-/

namespace PedroDB.Reference

/-- The last `k` bytes of a number, the most significant one first. -/
def bytesOf : ℕ → ℕ → Bytes
  | 0, _ => []
  | k + 1, n => bytesOf k (n / 256) ++ [UInt8.ofNat n]

/-- The number that bytes spell out. -/
def numberOf (bs : Bytes) : ℕ := bs.foldl (fun n b => n * 256 + b.toNat) 0

theorem length_bytesOf (k n : ℕ) : (bytesOf k n).length = k := by
  induction k generalizing n with
  | zero => rfl
  | succ k ih => simp [bytesOf, ih]

theorem numberOf_bytesOf (k n : ℕ) : numberOf (bytesOf k n) = n % 256 ^ k := by
  induction k generalizing n with
  | zero => simp [bytesOf, numberOf, Nat.mod_one]
  | succ k ih =>
    have hstep : numberOf (bytesOf (k + 1) n) = numberOf (bytesOf k (n / 256)) * 256 + n % 256 := by
      simp [numberOf, bytesOf, List.foldl_append]
    rw [hstep, ih, Nat.pow_succ, Nat.mul_comm (256 ^ k) 256, Nat.mod_mul]
    omega

/-- The platform. -/
scoped instance platform : Platform where
  putU32 x := bytesOf 4 x.toNat
  getU32 bs := UInt32.ofNat (numberOf bs)
  length_putU32 x := length_bytesOf 4 _
  getU32_putU32 x := by
    have hx : x.toNat < 256 ^ 4 := x.toNat_lt
    rw [numberOf_bytesOf, Nat.mod_eq_of_lt hx]
    exact UInt32.ofNat_toNat
  putU16 x := bytesOf 2 x.toNat
  getU16 bs := UInt16.ofNat (numberOf bs)
  length_putU16 x := length_bytesOf 2 _
  getU16_putU16 x := by
    have hx : x.toNat < 256 ^ 2 := x.toNat_lt
    rw [numberOf_bytesOf, Nat.mod_eq_of_lt hx]
    exact UInt16.ofNat_toNat
  hash bs := bs.foldl (fun h b => h * 31 + b.toUInt64) 7
  hashU64 n := n
  compress v := 0 :: v
  uncompress v :=
    match v with
    | [] => none
    | _ :: v => some v
  uncompress_compress v := rfl
  slack _ := 0

/-- Every file with garbage is compacted; values are stored as they are. -/
def options : Options where
  max_open_files := 8
  threshold_bytes := 1
  compress_value := false
  cache_enable := true
  read_cache_bytes := 1048576
  segments := 4
  segments_pos := by decide

/-- A record with a value of `n` bytes and an empty key. -/
def filler (n : ℕ) : Entry := ⟨0, .kSet, [], List.replicate n 0, 0⟩

theorem size_filler (n : ℕ) : (filler n).size = Header.sizeOf + n := by
  simp [filler, Entry.size]

theorem filler_storable {n : ℕ} (h : Header.sizeOf + n ≤ kMaxFileBytes) : (filler n).Storable :=
  ⟨Or.inl rfl, Nat.zero_le _, (size_filler n).trans_le h⟩

end PedroDB.Reference
