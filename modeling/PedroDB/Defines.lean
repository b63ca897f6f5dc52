import Mathlib.Data.List.Basic
import PedroDB.Lib.Framing
import PedroDB.Lib.Padded

/-!
# Common definitions

Bytes and machine widths, the constants of `defines.h`, statuses and options, and the
code that the database calls but that is not part of the repository. A `file_id_t` and
every other unsigned integer is a natural number, cut to its width where it can overflow.

## Main definitions

* `Platform` — the integer codec and the buffers of `pedrolib`, `std::hash` and `snappy`
* `Status`, `Options`
* `ReadBuffer` — the reading side of every buffer the decoders run on
-/

namespace PedroDB

abbrev Byte := UInt8
abbrev Bytes := List Byte
abbrev Key := Bytes

/-- What a number becomes in a `uint32_t`. -/
def u32 (n : ℕ) : ℕ := n % 2 ^ 32

/-- What a number becomes in a `size_t` or a `uint64_t`. -/
def u64 (n : ℕ) : ℕ := n % 2 ^ 64

/-- The difference of two `uint32_t`. -/
def sub32 (a b : ℕ) : ℕ := if b ≤ a then a - b else u32 (2 ^ 32 - (b - a))

/-- The difference of two `size_t`. -/
def sub64 (a b : ℕ) : ℕ := if b ≤ a then a - b else u64 (2 ^ 64 - (b - a))

theorem u32_of_lt {n : ℕ} (h : n < 2 ^ 32) : u32 n = n := Nat.mod_eq_of_lt h

theorem sub32_of_le {a b : ℕ} (h : b ≤ a) : sub32 a b = a - b := if_pos h

theorem sub64_of_le {a b : ℕ} (h : b ≤ a) : sub64 a b = a - b := if_pos h

theorem u64_of_lt {n : ℕ} (h : n < 2 ^ 64) : u64 n = n := Nat.mod_eq_of_lt h

/-- The maximum size of a file is 128MB. -/
def kMaxFileBytes : ℕ := 134217728

inductive Status
  | kOk | kNotFound | kCorruption | kNotSupported | kInvalidArgument | kIOError
  deriving DecidableEq, Repr

/-- The content of a file or a buffer; what was never written is zero. -/
abbrev Content := ℕ → Byte

/-- Code outside the repository that the database runs on. The laws are what the
database relies on: integers are stored in fixed width and read back, `Uncompress`
undoes `Compress`. -/
class Platform where
  /-- `AppendInt` of a `uint32_t`. -/
  putU32 : UInt32 → Bytes
  /-- `RetrieveInt` of a `uint32_t`. -/
  getU32 : Bytes → UInt32
  length_putU32 : ∀ x, (putU32 x).length = 4
  getU32_putU32 : ∀ x, getU32 (putU32 x) = x
  /-- `AppendInt` of a `uint16_t`. -/
  putU16 : UInt16 → Bytes
  /-- `RetrieveInt` of a `uint16_t`. -/
  getU16 : Bytes → UInt16
  length_putU16 : ∀ x, (putU16 x).length = 2
  getU16_putU16 : ∀ x, getU16 (putU16 x) = x
  /-- `std::hash<std::string_view>`. -/
  hash : Bytes → UInt64
  /-- `std::hash<uint64_t>`. -/
  hashU64 : ℕ → ℕ
  compress : Bytes → Bytes
  /-- `snappy::Uncompress`; `none` when the input is malformed. -/
  uncompress : Bytes → Option Bytes
  uncompress_compress : ∀ v, uncompress (compress v) = some v
  /-- How many bytes `ArrayBuffer::EnsureWritable(n)` provides beyond the `n` asked for. -/
  slack : ℕ → ℕ

attribute [simp] Platform.length_putU32 Platform.getU32_putU32 Platform.length_putU16
  Platform.getU16_putU16 Platform.uncompress_compress

/-- The members of `Options` that decide what the database computes. -/
structure Options where
  max_open_files : ℕ
  threshold_bytes : ℕ
  compress_value : Bool
  /-- `read_cache.enable` -/
  cache_enable : Bool
  read_cache_bytes : ℕ
  /-- `read_cache.segments`; the cache divides by it. -/
  segments : ℕ
  segments_pos : 0 < segments

/-- The reading side shared by `ReadableBuffer`, `ReadableView` and `ArrayBuffer`. -/
structure ReadBuffer where
  data : Content
  readIndex : ℕ
  capacity : ℕ

namespace ReadBuffer

variable {b : ReadBuffer} {n : ℕ}

/-- An `ArrayBuffer` or a view that holds exactly these bytes. -/
def ofBytes (xs : Bytes) : ReadBuffer :=
  { data := Padded.ofList 0 xs, readIndex := 0, capacity := xs.length }

/-- A buffer just after `Reset`. -/
def empty : ReadBuffer := ofBytes []

/-- `ReadableBytes()`, an unsigned subtraction. -/
def readableBytes (b : ReadBuffer) : ℕ := sub64 b.capacity b.readIndex

/-- The `n` bytes at `ReadIndex()`. -/
def peek (b : ReadBuffer) (n : ℕ) : Bytes := Padded.read b.data b.readIndex n

/-- `Retrieve(n)` -/
def retrieve (b : ReadBuffer) (n : ℕ) : ReadBuffer := { b with readIndex := b.readIndex + n }

/-- The loop of a reader, as long as it decodes entries. -/
def collect {ε : Type*} (unPack : ReadBuffer → Option ε × ReadBuffer) :
    ℕ → ReadBuffer → List ε
  | 0, _ => []
  | fuel + 1, b =>
    match unPack b with
    | (none, _) => []
    | (some e, b) => e :: collect unPack fuel b

/-- The read position is inside the buffer. -/
def InBounds (b : ReadBuffer) : Prop := b.readIndex ≤ b.capacity

/-- Adjacent pieces of a buffer join. -/
theorem peek_add {m : ℕ} : b.peek (m + n) = b.peek m ++ (b.retrieve m).peek n := Padded.read_append

theorem retrieve_retrieve {m : ℕ} : (b.retrieve m).retrieve n = b.retrieve (m + n) := by
  simp [retrieve, Nat.add_assoc]

@[simp] theorem length_peek : (b.peek n).length = n := Padded.length_read

theorem InBounds.readableBytes_eq (h : b.InBounds) :
    b.readableBytes = b.capacity - b.readIndex :=
  sub64_of_le h

theorem InBounds.retrieve (hn : b.readIndex + n ≤ b.capacity) :
    (b.retrieve n).InBounds :=
  hn

theorem ofBytes_inBounds (xs : Bytes) : (ofBytes xs).InBounds := Nat.zero_le _

@[simp] theorem peek_ofBytes (xs : Bytes) : (ofBytes xs).peek xs.length = xs := by
  have : Padded.read (Padded.ofList (0 : Byte) (xs ++ [])) 0 xs.length = xs :=
    Padded.read_ofList_prefix
  rwa [List.append_nil] at this

@[simp] theorem retrieve_zero : b.retrieve 0 = b := rfl

/-- A loop of reads over frames laid end to end yields the frames, and goes on behind
them. -/
theorem collect_frames {ε : Type*} {unPack : ReadBuffer → Option ε × ReadBuffer}
    {size : ε → ℕ} {es : List ε} {fuel : ℕ} (hfuel : es.length ≤ fuel)
    (hstep : ∀ o e, Framing.At size es o e →
      unPack (b.retrieve o) = (some e, b.retrieve (o + size e))) :
    collect unPack fuel b =
      es ++ collect unPack (fuel - es.length) (b.retrieve (Framing.total size es)) := by
  induction es generalizing b fuel with
  | nil => simp
  | cons e es ih =>
    obtain ⟨fuel, rfl⟩ : ∃ n, fuel = n + 1 := ⟨fuel - 1, by simp at hfuel; omega⟩
    have hhead : unPack b = (some e, b.retrieve (size e)) := by
      simpa using hstep 0 e (Framing.at_total [] e es)
    have htail := @ih (b.retrieve (size e)) fuel (by simpa using hfuel)
      fun o x hx => by
        have hat : Framing.At size ([e] ++ es) (Framing.total size [e] + o) x :=
          Framing.at_append_iff.mpr (Or.inr ⟨o, hx, rfl⟩)
        have := hstep _ x hat
        simpa [retrieve_retrieve, Nat.add_assoc] using this
    simp only [collect, hhead, htail, retrieve_retrieve, List.cons_append, List.length_cons,
      Nat.reduceSubDiff, Framing.total_cons]

theorem collect_of_none {ε : Type*} {unPack : ReadBuffer → Option ε × ReadBuffer} {fuel : ℕ}
    (h : (unPack b).1 = none) : collect unPack fuel b = [] := by
  cases fuel with
  | zero => rfl
  | succ fuel =>
    rcases hu : unPack b with ⟨_ | e, b'⟩
    · simp [collect, hu]
    · simp [hu] at h

@[simp] theorem retrieve_data : (b.retrieve n).data = b.data := rfl
@[simp] theorem retrieve_readIndex : (b.retrieve n).readIndex = b.readIndex + n := rfl
@[simp] theorem retrieve_capacity : (b.retrieve n).capacity = b.capacity := rfl

end ReadBuffer

end PedroDB
