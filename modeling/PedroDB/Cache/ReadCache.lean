import PedroDB.Cache.LRU
import PedroDB.Format.Record

/-!
# The read cache

Blocks of 4 KiB, keyed by file and position. A record is assembled from the blocks it
touches and then decoded.

## Main definitions

* `ReadableFile` — an open file and its `Read`
* `ReadCache.Context`, `ReadCache.getBlock`, `ReadCache.get`
-/

namespace PedroDB

/-- A `ReadableFile`: what it holds, up to its size, and the offsets at which `Pread` returns an
error, or fewer bytes than it was asked for. -/
structure ReadableFile where
  data : Content
  size : ℕ
  fails : ℕ → Bool := fun _ => false

/-- `Read`, when it returns all `n` bytes. -/
def ReadableFile.read (f : ReadableFile) (offset n : ℕ) : Option Bytes :=
  if offset + n ≤ f.size ∧ f.fails offset = false then some (Padded.read f.data offset n) else none

namespace ReadCache

/-- `1 << Block::kBit` -/
def blockSize : ℕ := 4096

/-- `GetOffset` -/
def blockOffset (block_idx : ℕ) : ℕ := u32 (u64 (block_idx * blockSize))

/-- `GetFile` -/
def blockFile (block_idx : ℕ) : ℕ := u32 (u64 (block_idx * blockSize) / 2 ^ 32)

/-- `GetBlockIdx` -/
def blockIdx (file_idx offset : ℕ) : ℕ := (file_idx * 2 ^ 32 + offset) / blockSize

/-- `ReadCache::Context` -/
structure Context where
  file : Option ReadableFile
  file_idx : ℕ
  begin_ : ℕ
  end_ : ℕ
  buf : Bytes
  block_ref : Option Bytes

def Context.create (loc : Location) (length : ℕ) : Context :=
  { file := none, file_idx := loc.id, begin_ := loc.offset, end_ := u32 (loc.offset + length)
    buf := [], block_ref := none }

/-- `Context::Size()` -/
def Context.size (ctx : Context) : ℕ := sub32 ctx.end_ ctx.begin_

variable [Platform] {σ : Type*}

/-- `Context::Build` -/
def Context.build (ctx : Context) : Status × Option Entry :=
  match Entry.unPack (ReadBuffer.ofBytes (ctx.block_ref.getD ctx.buf)) with
  | (some e, _) => (.kOk, some e)
  | (none, _) => (.kCorruption, none)

/-- The supplier of `Get(block_idx, ctx)`: open the file once, read one block. -/
def readBlock (opener : σ → ℕ → Status × Option ReadableFile × σ) (block_idx : ℕ)
    (s : Context × σ) : Status × Bytes × (Context × σ) :=
  let (ctx, s) := s
  let (status, file, s) : Status × Option ReadableFile × σ :=
    match ctx.file with
    | some file => (.kOk, some file, s)
    | none => opener s (blockFile block_idx)
  match status, file with
  | .kOk, some file =>
    let ctx := { ctx with file := some file }
    -- A short read is an error, too.
    match file.read (blockOffset block_idx) blockSize with
    | some block => (.kOk, block, (ctx, s))
    | none => (.kIOError, [], (ctx, s))
  | status, _ => (status, [], (ctx, s))

/-- `Get(block_idx, ctx)`, the slice of one block. -/
def Context.addBlock (ctx : Context) (block_idx : ℕ) (block : Bytes) : Context :=
  let begin_ := max (blockOffset block_idx) ctx.begin_
  let end_ := min (blockOffset (block_idx + 1)) ctx.end_
  let slice := (block.drop (begin_ - blockOffset block_idx)).take (sub32 end_ begin_)
  -- A slice of the whole length is referred to, and not copied.
  if slice.length = ctx.size then { ctx with block_ref := some slice }
  else { ctx with buf := ctx.buf ++ slice }

def getBlock (opener : σ → ℕ → Status × Option ReadableFile × σ) (block_idx : ℕ)
    (ctx : Context) (cache : SegmentCache Bytes) (s : σ) :
    Status × Context × SegmentCache Bytes × σ :=
  match cache.getOrCompute block_idx (ctx, s) (readBlock opener block_idx) with
  | (.kOk, some block, cache, (ctx, s)) => (.kOk, ctx.addBlock block_idx block, cache, s)
  | (status, _, cache, (ctx, s)) => (status, ctx, cache, s)

/-- The loop of `Get(ctx)`; `none` when it is still running after `fuel` rounds. -/
def getLoop (opener : σ → ℕ → Status × Option ReadableFile × σ) : ℕ → ℕ → Context →
    SegmentCache Bytes → σ → Option (Status × Context × SegmentCache Bytes × σ)
  | 0, _, _, _, _ => none
  | fuel + 1, i, ctx, cache, s =>
    if ctx.end_ ≤ blockOffset i then some (.kOk, ctx, cache, s)
    else
      match getBlock opener i ctx cache s with
      | (.kOk, ctx, cache, s) => getLoop opener fuel (i + 1) ctx cache s
      | (status, ctx, cache, s) => some (status, ctx, cache, s)

/-- `ReadCache::Get(ctx)`, with the entry that `GetEntry` reports. -/
def get (opener : σ → ℕ → Status × Option ReadableFile × σ) (ctx : Context)
    (cache : SegmentCache Bytes) (s : σ) :
    Option (Status × Option Entry × SegmentCache Bytes × σ) :=
  (getLoop opener (2 ^ 20 + 1) (blockIdx ctx.file_idx ctx.begin_) ctx cache s).map
    fun (status, ctx, cache, s) =>
      match status with
      | .kOk => (ctx.build.1, ctx.build.2, cache, s)
      | status => (status, none, cache, s)

/-- The constructor, for a number of segments and a capacity in bytes. -/
def create (segments capacity : ℕ) : SegmentCache Bytes :=
  { count := segments
    segments := fun _ => LRUCache.create ((capacity + segments - 1) / segments / blockSize) }

end ReadCache
end PedroDB
