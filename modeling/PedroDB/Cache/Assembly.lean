import PedroDB.Cache.ReadCache

/-!
# Assembly of a record from cached blocks

`ReadCache::Get` walks over the 4 KiB blocks that a record touches, takes each from the
cache or reads it, and joins the slices. As long as every cached block of the file
still has the bytes of the file, the joined slices are the bytes of the record.

## Main definitions

* `ReadCache.IsBlock` — where the blocks of a file are keyed
* `ReadCache.Opens` — the opener hands out one file, over all states it may be in
* `ReadCache.Touches` — the blocks that a record touches

## Main results

* `ReadCache.get_eq` — the loop ends and decodes exactly the bytes of the record
-/

namespace PedroDB.ReadCache

variable {σ : Type*}

/-- The key of block `q` of file `id`. -/
def blockKey (id q : ℕ) : ℕ := id * 2 ^ 20 + q

theorem blockKey_mul (id q : ℕ) : blockKey id q * blockSize = id * 2 ^ 32 + q * 4096 := by
  simp only [blockKey, blockSize]
  omega

theorem blockKey_succ (id q : ℕ) : blockKey id q + 1 = blockKey id (q + 1) := Nat.add_assoc _ _ _

theorem blockOffset_blockKey {id q : ℕ} (hid : id < 2 ^ 32) (hq : q < 2 ^ 20) :
    blockOffset (blockKey id q) = q * 4096 := by
  rw [blockOffset, blockKey_mul, u64_of_lt (by omega), u32]
  omega

theorem blockFile_blockKey {id q : ℕ} (hid : id < 2 ^ 32) (hq : q < 2 ^ 20) :
    blockFile (blockKey id q) = id := by
  rw [blockFile, blockKey_mul, u64_of_lt (by omega), u32]
  omega

theorem blockIdx_eq (id o : ℕ) : blockIdx id o = blockKey id (o / 4096) := by
  simp only [blockIdx, blockKey, blockSize]
  omega

/-- Index `i` is that of block `q` of file `id`. -/
structure IsBlock (i id q : ℕ) : Prop where
  file : blockFile i = id
  offset : blockOffset i = q * 4096
  next : blockOffset (i + 1) = (q + 1) * 4096

theorem isBlock_blockKey {id q : ℕ} (hid : id < 2 ^ 32) (hq : q + 1 < 2 ^ 20) :
    IsBlock (blockKey id q) id q where
  file := blockFile_blockKey hid (by omega)
  offset := blockOffset_blockKey hid (by omega)
  next := by rw [blockKey_succ, blockOffset_blockKey hid hq]

/-- Over all states `S` of the opener, file `id` is opened as `file`. -/
def Opens (opener : σ → ℕ → Status × Option ReadableFile × σ) (S : σ → Prop) (id : ℕ)
    (file : ReadableFile) : Prop :=
  ∀ s, S s → ∃ s', opener s id = (.kOk, some file, s') ∧ S s'

/-- Block `q` of a file has bytes between `o` and `o + n`. -/
def Touches (o n q : ℕ) : Prop := o / 4096 ≤ q ∧ q * 4096 < o + n

/-- The bytes of block `q`. -/
def blockOf (file : ReadableFile) (q : ℕ) : Bytes := Padded.read file.data (q * 4096) blockSize

section

variable [Platform] {opener : σ → ℕ → Status × Option ReadableFile × σ} {S : σ → Prop}
  {file : ReadableFile} {cache : SegmentCache Bytes} {ctx : Context} {s : σ} {id o n q : ℕ}
  {P : ℕ × Bytes → Prop} {i : ℕ}

/-- A context that assembles the `n` bytes at `o` of file `id`. -/
structure Context.For (ctx : Context) (file : ReadableFile) (o n : ℕ) : Prop where
  begin_ : ctx.begin_ = o
  end_ : ctx.end_ = o + n
  file : ctx.file = none ∨ ctx.file = some file

/-- What the context holds in front of block `q`. -/
def Context.Holds (ctx : Context) (file : ReadableFile) (o n q : ℕ) : Prop :=
  (ctx.block_ref = none ∧
      ctx.buf = Padded.read file.data o (min (max (q * 4096) o) (o + n) - o)) ∨
    ctx.block_ref = some (Padded.read file.data o n) ∧ o + n ≤ q * 4096

omit [Platform] in
theorem Context.Holds.bytes_eq (h : ctx.Holds file o n q) (hend : o + n ≤ q * 4096) :
    ctx.block_ref.getD ctx.buf = Padded.read file.data o n := by
  rcases h with ⟨href, hbuf⟩ | ⟨href, -⟩
  · have hlen : min (max (q * 4096) o) (o + n) - o = n := by omega
    rw [href, Option.getD_none, hbuf, hlen]
  · rw [href, Option.getD_some]

omit [Platform] in
/-- Only the bytes of the record matter. -/
theorem Context.Holds.congr {file' : ReadableFile} (h : ctx.Holds file o n q)
    (hbytes : Padded.read file'.data o n = Padded.read file.data o n) : ctx.Holds file' o n q := by
  refine h.imp (fun ⟨href, hbuf⟩ => ⟨href, ?_⟩) fun ⟨href, hend⟩ => ⟨href.trans ?_, hend⟩
  · -- What is assembled so far is the beginning of the record.
    have hprefix : ∀ f : ReadableFile, Padded.read f.data o (min (max (q * 4096) o) (o + n) - o) =
        (Padded.read f.data o n).take (min (max (q * 4096) o) (o + n) - o) := by
      intro f
      obtain ⟨m, hm⟩ : ∃ m, n = (min (max (q * 4096) o) (o + n) - o) + m :=
        Nat.exists_eq_add_of_le (by omega)
      generalize min (max (q * 4096) o) (o + n) - o = k at hm
      rw [hm, Padded.read_append, List.take_left' Padded.length_read]
    rw [hbuf, hprefix, hprefix, hbytes]
  · rw [hbytes]

omit [Platform] in
/-- A slice of a block is a read of the file. -/
theorem slice_blockOf {a b : ℕ} (ha : q * 4096 ≤ a) (hab : a ≤ b) (hb : b ≤ (q + 1) * 4096) :
    ((blockOf file q).drop (a - q * 4096)).take (b - a) = Padded.read file.data a (b - a) := by
  have hsplit : blockOf file q = Padded.read file.data (q * 4096)
      ((a - q * 4096) + ((b - a) + ((q + 1) * 4096 - b))) := by
    have hlen : blockSize = (a - q * 4096) + ((b - a) + ((q + 1) * 4096 - b)) := by
      rw [blockSize]
      omega
    rw [blockOf, ← hlen]
  have hpos : q * 4096 + (a - q * 4096) = a := by omega
  rw [hsplit, Padded.read_append, Padded.read_append, List.drop_left' (by simp),
    List.take_left' (by simp), hpos]

omit [Platform] in
theorem Context.addBlock_fields (ctx : Context) (i : ℕ) (block : Bytes) :
    (ctx.addBlock i block).file = ctx.file ∧ (ctx.addBlock i block).begin_ = ctx.begin_ ∧
      (ctx.addBlock i block).end_ = ctx.end_ := by
  simp only [Context.addBlock]
  split_ifs
  · exact ⟨rfl, rfl, rfl⟩
  · exact ⟨rfl, rfl, rfl⟩

omit [Platform] in
theorem Context.For.addBlock (h : ctx.For file o n) (i : ℕ) (block : Bytes) :
    (ctx.addBlock i block).For file o n := by
  obtain ⟨hfile, hbegin, hend⟩ := ctx.addBlock_fields i block
  exact ⟨hbegin.trans h.begin_, hend.trans h.end_, hfile.symm ▸ h.file⟩

omit [Platform] in
/-- Adding the block in front of which the context stands brings it behind the block. -/
theorem Context.addBlock_holds (hi : IsBlock i id q) (hbegin : ctx.begin_ = o)
    (hend : ctx.end_ = o + n) (hholds : ctx.Holds file o n q) (hq : Touches o n q) :
    (ctx.addBlock i (blockOf file q)).Holds file o n (q + 1) := by
  obtain ⟨hq1, hq2⟩ := hq
  obtain ⟨href, hbuf⟩ := hholds.resolve_right fun h => by omega
  have hsize : ctx.size = n := by
    rw [Context.size, hend, hbegin, sub32_of_le (by omega)]
    omega
  -- What `AddBlock` copies are the bytes of the file from where the context stands.
  have hslice : ((blockOf file q).drop (max (q * 4096) o - q * 4096)).take
      (sub32 (min ((q + 1) * 4096) (o + n)) (max (q * 4096) o)) =
        Padded.read file.data (max (q * 4096) o)
          (min ((q + 1) * 4096) (o + n) - max (q * 4096) o) := by
    rw [sub32_of_le (by omega)]
    exact slice_blockOf (by omega) (by omega) (by omega)
  simp only [Context.addBlock, hi.offset, hi.next, hbegin, hend, hslice, hsize,
    Padded.length_read]
  split_ifs with hwhole
  · -- One block holds the whole range, and the context refers to it.
    refine Or.inr ⟨?_, by omega⟩
    have hmax : max (q * 4096) o = o := by omega
    rw [hwhole, hmax]
  · -- The copy continues the bytes that the buffer already has.
    refine Or.inl ⟨href, ?_⟩
    have hfrom : min (max (q * 4096) o) (o + n) = max (q * 4096) o := by omega
    have hto : min (max ((q + 1) * 4096) o) (o + n) - o =
        (max (q * 4096) o - o) + (min ((q + 1) * 4096) (o + n) - max (q * 4096) o) := by omega
    have hpos : o + (max (q * 4096) o - o) = max (q * 4096) o := by omega
    simp only [hbuf, hto, hfrom, Padded.read_append, hpos]

/-- One round of the loop: the block is cached or read, and added. -/
theorem getBlock_eq (hi : IsBlock i id q) (hopen : Opens opener S id file)
    (hreads : ∀ o, file.fails o = false) (haligned : 4096 ∣ file.size)
    (hend : o + n ≤ file.size) (hcache : ∀ x, cache.Mem x → P x)
    (hblock : ∀ b, P (i, b) → b = blockOf file q) (hread : P (i, blockOf file q))
    (hS : S s) (hfor : ctx.For file o n) (hholds : ctx.Holds file o n q) (hq : Touches o n q) :
    ∃ ctx' cache' s', getBlock opener i ctx cache s = (.kOk, ctx', cache', s') ∧
      (∀ x, cache'.Mem x → P x) ∧ S s' ∧ ctx'.For file o n ∧ ctx'.Holds file o n (q + 1) := by
  obtain ⟨k, hk⟩ := haligned
  have hinside : q * 4096 + blockSize ≤ file.size := by
    have := hq.2
    rw [blockSize]
    omega
  have hfile : file.read (blockOffset i) blockSize = some (blockOf file q) := by
    rw [hi.offset, ReadableFile.read, if_pos ⟨hinside, hreads _⟩, blockOf]
  -- The context has opened the file before, or opens it now.
  have hsupplier : ∃ s', S s' ∧ readBlock opener i (ctx, s) =
      (.kOk, blockOf file q, ({ ctx with file := some file }, s')) := by
    obtain ⟨s', hs', hS'⟩ := hopen s hS
    rcases hfor.file with hnone | hsome
    · refine ⟨s', hS', ?_⟩
      simp only [readBlock, hnone, hi.file, hs', hfile]
    · refine ⟨s, hS, ?_⟩
      simp only [readBlock, hsome, hfile]
  obtain ⟨s', hS', hsup⟩ := hsupplier
  obtain ⟨v, cache', t, hget, hv, hmem⟩ := cache.getOrCompute_of_kOk i hsup
  have hP : ∀ x, cache'.Mem x → P x := by
    intro x hx
    rcases hmem x hx with hx | rfl
    · exact hcache x hx
    · exact hread
  have hfor' : ({ ctx with file := some file } : Context).For file o n :=
    { begin_ := hfor.begin_, end_ := hfor.end_, file := Or.inr (Eq.refl (some file)) }
  -- The segment had the block, and the context does not open the file.
  rcases hv with ⟨hcached, ht⟩ | ⟨hv, ht⟩
  · rw [hblock v (hcache _ hcached), ht] at hget
    exact ⟨_, cache', s, by simp only [getBlock, hget], hP, hS, hfor.addBlock _ _,
      Context.addBlock_holds hi hfor.begin_ hfor.end_ hholds hq⟩
  · -- The supplier has read it.
    rw [hv, ht] at hget
    have hholds₀ : ({ ctx with file := some file } : Context).Holds file o n q := hholds
    exact ⟨_, cache', s', by simp only [getBlock, hget], hP, hS', hfor'.addBlock _ _,
      Context.addBlock_holds hi hfor.begin_ hfor.end_ hholds₀ hq⟩

theorem getLoop_eq (hid : id < 2 ^ 32) (hopen : Opens opener S id file)
    (hreads : ∀ o, file.fails o = false) (haligned : 4096 ∣ file.size)
    (hend : o + n ≤ file.size) (hbound : file.size < 2 ^ 31)
    (hblock : ∀ q, Touches o n q → ∀ b, P (blockKey id q, b) → b = blockOf file q)
    (hread : ∀ q, Touches o n q → P (blockKey id q, blockOf file q)) (fuel : ℕ)
    (hcache : ∀ x, cache.Mem x → P x) (hS : S s) (hfor : ctx.For file o n)
    (hholds : ctx.Holds file o n q) (hstart : o / 4096 ≤ q) (hq : q < 2 ^ 20)
    (hfuel : (o + n) / 4096 < q + fuel) :
    ∃ ctx' cache' s', getLoop opener (fuel + 1) (blockKey id q) ctx cache s =
        some (.kOk, ctx', cache', s') ∧ (∀ x, cache'.Mem x → P x) ∧ S s' ∧
      ctx'.block_ref.getD ctx'.buf = Padded.read file.data o n := by
  induction fuel generalizing q ctx cache s with
  | zero =>
    -- The fuel is enough for the blocks of the range.
    have hend : o + n ≤ q * 4096 := by omega
    have hdone : ctx.end_ ≤ blockOffset (blockKey id q) := by
      rw [blockOffset_blockKey hid hq, hfor.end_]
      exact hend
    refine ⟨ctx, cache, s, ?_, hcache, hS, hholds.bytes_eq hend⟩
    rw [getLoop, if_pos hdone]
  | succ fuel ih =>
    rw [getLoop, blockOffset_blockKey hid hq, hfor.end_]
    split_ifs with hdone
    · -- The context ends at or before this block.
      exact ⟨ctx, cache, s, rfl, hcache, hS, hholds.bytes_eq hdone⟩
    · have hnext : (o + n) / 4096 < q + 1 + fuel := by omega
      have hq' : q + 1 < 2 ^ 20 := by omega
      have htouch : Touches o n q := ⟨hstart, Nat.not_le.mp hdone⟩
      obtain ⟨ctx', cache', s', hget, hcache', hS', hfor', hholds'⟩ :=
        getBlock_eq (isBlock_blockKey hid hq') hopen hreads haligned hend hcache (hblock q htouch)
          (hread q htouch) hS hfor hholds htouch
      simp only [hget, blockKey_succ]
      exact ih hcache' hS' hfor' hholds' (by omega) hq' hnext

/-- The read cache decodes exactly the bytes of the record, as long as the cached
blocks that the record touches have the bytes of the file, and no read of it fails. -/
theorem get_eq (hid : id < 2 ^ 32) (hopen : Opens opener S id file)
    (hreads : ∀ o, file.fails o = false) (haligned : 4096 ∣ file.size)
    (hend : o + n ≤ file.size) (hbound : file.size < 2 ^ 31)
    (hblock : ∀ q, Touches o n q → ∀ b, P (blockKey id q, b) → b = blockOf file q)
    (hread : ∀ q, Touches o n q → P (blockKey id q, blockOf file q))
    (hcache : ∀ x, cache.Mem x → P x) (hS : S s) :
    ∃ status entry rest cache' s',
      get opener (Context.create ⟨id, o⟩ n) cache s = some (status, entry, cache', s') ∧
      Entry.unPack (ReadBuffer.ofBytes (Padded.read file.data o n)) = (entry, rest) ∧
      (status = if entry.isSome then .kOk else .kCorruption) ∧
      (∀ x, cache'.Mem x → P x) ∧ S s' := by
  have hfor : (Context.create ⟨id, o⟩ n).For file o n :=
    ⟨rfl, u32_of_lt (by simp only; omega), Or.inl rfl⟩
  -- Nothing is copied before the first block.
  have hholds : (Context.create ⟨id, o⟩ n).Holds file o n (o / 4096) := by
    refine Or.inl ⟨rfl, ?_⟩
    have : min (max (o / 4096 * 4096) o) (o + n) - o = 0 := by omega
    rw [this, Padded.read_zero]
    rfl
  obtain ⟨fuel, hfuel⟩ : ∃ fuel, 2 ^ 20 = fuel := ⟨_, rfl⟩
  obtain ⟨ctx', cache', s', hloop, hcache', hS', hbytes⟩ :=
    getLoop_eq hid hopen hreads haligned hend hbound hblock hread fuel hcache hS hfor hholds
      le_rfl (by omega) (by omega)
  have hidx : blockIdx (Context.create ⟨id, o⟩ n).file_idx (Context.create ⟨id, o⟩ n).begin_ =
      blockKey id (o / 4096) := blockIdx_eq id o
  rcases hunpack : Entry.unPack (ReadBuffer.ofBytes (Padded.read file.data o n)) with ⟨_ | e, rest⟩
  · refine ⟨.kCorruption, none, rest, cache', s', ?_, rfl, rfl, hcache', hS'⟩
    simp only [get, hfuel, hidx, hloop, Option.map_some, Context.build, hbytes, hunpack]
  · refine ⟨.kOk, some e, rest, cache', s', ?_, rfl, rfl, hcache', hS'⟩
    simp only [get, hfuel, hidx, hloop, Option.map_some, Context.build, hbytes, hunpack]

/-! ### Whatever the cache holds -/

theorem getBlock_state (hopen : ∀ s id, S s → S (opener s id).2.2) (hS : S s) :
    S (getBlock opener i ctx cache s).2.2.2 := by
  -- The supplier changes the state through the opener only.
  have hread : ∀ p : Context × σ, S p.2 → S (readBlock opener i p).2.2.2 := by
    rintro ⟨ctx, s⟩ hS
    have hopen' := hopen s (blockFile i) hS
    rcases hf : ctx.file with _ | file
    · rcases ho : opener s (blockFile i) with ⟨status, file, s'⟩
      rw [ho] at hopen'
      simp only [readBlock, hf, ho]
      split
      · split <;> exact hopen'
      · exact hopen'
    · simp only [readBlock, hf]
      split <;> exact hS
  have hcompute : S (cache.getOrCompute i (ctx, s) (readBlock opener i)).2.2.2.2 := by
    have hread' := hread (ctx, s) hS
    simp only [SegmentCache.getOrCompute]
    split
    · exact hS
    · split
      · next heq =>
        rw [heq] at hread'
        exact hread'
      · next heq =>
        rw [heq] at hread'
        exact hread'
  -- `AddBlock` changes the context, not the state.
  rcases hget : cache.getOrCompute i (ctx, s) (readBlock opener i) with
    ⟨status, block, cache', ctx', s'⟩
  rw [hget] at hcompute
  simp only [getBlock, hget]
  split
  · next heq =>
    simp only [Prod.mk.injEq] at heq
    obtain ⟨-, -, -, rfl, rfl⟩ := heq
    exact hcompute
  · next heq =>
    simp only [Prod.mk.injEq] at heq
    obtain ⟨-, -, -, rfl, rfl⟩ := heq
    exact hcompute

/-- Only the opener touches the state it runs on. -/
theorem get_state {status : Status} {entry : Option Entry} {cache' : SegmentCache Bytes} {s' : σ}
    (hopen : ∀ s id, S s → S (opener s id).2.2) (hS : S s)
    (hget : get opener ctx cache s = some (status, entry, cache', s')) : S s' := by
  -- The loop keeps what the opener keeps, whatever its status.
  have hloop : ∀ fuel i ctx cache s status ctx' cache' s', S s →
      getLoop opener fuel i ctx cache s = some (status, ctx', cache', s') → S s' := by
    intro fuel
    induction fuel with
    | zero =>
      intro i ctx cache s status ctx' cache' s' _ h
      simp [getLoop] at h
    | succ fuel ih =>
      intro i ctx cache s status ctx' cache' s' hS h
      have hblock : S (getBlock opener i ctx cache s).2.2.2 := getBlock_state hopen hS
      rw [getLoop] at h
      split_ifs at h
      · simp only [Option.some.injEq, Prod.mk.injEq] at h
        exact h.2.2.2 ▸ hS
      · split at h
        · next heq => exact ih _ _ _ _ _ _ _ _ (by rw [heq] at hblock; exact hblock) h
        · next heq =>
          simp only [Option.some.injEq, Prod.mk.injEq] at h
          rw [heq] at hblock
          exact h.2.2.2 ▸ hblock
  obtain ⟨⟨st, c, ca, s₁⟩, hl, heq⟩ := Option.map_eq_some_iff.mp hget
  have := hloop _ _ _ _ _ _ _ _ _ hS hl
  dsimp only at heq
  split at heq
  · simp only [Prod.mk.injEq] at heq
    exact heq.2.2.2 ▸ this
  · simp only [Prod.mk.injEq] at heq
    exact heq.2.2.2 ▸ this

end

end PedroDB.ReadCache
