import PedroDB.Cache.Assembly
import PedroDB.Reference

/-!
# Block assembly

Files that do not change are read through the read cache, whose contents depend on all
earlier calls. What `Get` hands to the decoder does not. A file may fail to open, and each
read of it may fail.

## Main definitions

* `ReadCache.Family` — the files, and what the file opener may return
* `ReadCache.Supplies`, `ReadCache.failure` — the blocks that a call can read, and what it reports
  when it cannot
* `ReadCache.IsBlockOf` — what may be cached
* `ReadCache.Outcome` — what the loop over the blocks may return
* `ReadCache.getAll` — calls of `Get` one after another

## Main results

* `ReadCache.getBlock_cases`, `ReadCache.getLoop_cases` — one block, and all of them
* `ReadCache.get_exact` — `Get` after any history
-/

namespace PedroDB.ReadCache

section

variable {σ : Type*}

/-- Immutable files, of whole blocks each, and an opener that returns them or fails. What it
returns may fail to read. -/
structure Family (files : ℕ → Option ReadableFile)
    (opener : σ → ℕ → Status × Option ReadableFile × σ) : Prop where
  aligned : ∀ id file, files id = some file → 4096 ∣ file.size
  bounded : ∀ id file, files id = some file → file.size ≤ kMaxFileBytes
  opened : ∀ s id opened s', opener s id = (.kOk, opened, s') → ∃ file handle,
    files id = some file ∧ opened = some handle ∧ handle.data = file.data ∧
      handle.size = file.size

/-- A call that finds the opener in state `s` reads these bytes as block `q` of file `id`. -/
def Supplies (opener : σ → ℕ → Status × Option ReadableFile × σ) (s : σ) (id q : ℕ)
    (block : Bytes) : Prop :=
  ∃ handle s', opener s id = (.kOk, some handle, s') ∧
    handle.read (q * 4096) blockSize = some block

/-- What the call reports if the file does not open, or a block is not read. -/
def failure (opener : σ → ℕ → Status × Option ReadableFile × σ) (s : σ) (id : ℕ) : Status :=
  if (opener s id).1 = .kOk then .kIOError else (opener s id).1

/-- A block with its key, as the read cache holds it. -/
def IsBlockOf (files : ℕ → Option ReadableFile) (x : ℕ × Bytes) : Prop :=
  ∃ file, files (blockFile x.1) = some file ∧ blockOffset x.1 + blockSize ≤ file.size ∧
    x.2 = Padded.read file.data (blockOffset x.1) blockSize

variable [Platform] {files : ℕ → Option ReadableFile}
  {opener : σ → ℕ → Status × Option ReadableFile × σ} {cache : SegmentCache Bytes}
  {ctx : Context} {s s₀ : σ} {id o n m q i fuel : ℕ} {file handle : ReadableFile} {block : Bytes}

/-- Calls of `Get`, each with what its opener finds at that time; the cache that they
leave. -/
def getAll (opener : σ → ℕ → Status × Option ReadableFile × σ) (cache : SegmentCache Bytes)
    (calls : List (Location × ℕ × σ)) : Option (SegmentCache Bytes) :=
  calls.foldlM (fun cache (loc, length, s) =>
    (get opener (Context.create loc length) cache s).map fun (_, _, cache, _) => cache) cache

/-- The context has not opened its file yet, or it has. -/
def Context.Ready (ctx : Context) (opener : σ → ℕ → Status × Option ReadableFile × σ) (id : ℕ)
    (s₀ s : σ) : Prop :=
  ctx.file = none ∧ s = s₀ ∨
    ∃ handle s', ctx.file = some handle ∧ opener s₀ id = (.kOk, some handle, s')

/-! ### What is read -/

omit [Platform] in
theorem failure_ne_kOk : failure opener s id ≠ .kOk := by
  unfold failure
  split_ifs with hok
  · decide
  · exact hok

omit [Platform] in
/-- A block that is read is a block of the file. -/
theorem Supplies.eq_blockOf (hfam : Family files opener) (h : Supplies opener s id q block) :
    ∃ file, files id = some file ∧ (q + 1) * 4096 ≤ file.size ∧ block = blockOf file q := by
  obtain ⟨handle, s', hopen, hread⟩ := h
  obtain ⟨file, handle', hfile, heq, hdata, hsize⟩ := hfam.opened s id _ s' hopen
  obtain rfl := Option.some_inj.mp heq
  unfold ReadableFile.read at hread
  split_ifs at hread with hroom
  refine ⟨file, hfile, ?_, ?_⟩
  · have := hroom.1
    rw [blockSize] at this
    omega
  · rw [← Option.some_inj.mp hread, hdata, blockOf]

omit [Platform] in
theorem Supplies.isBlockOf (hfam : Family files opener) (hid : id < 2 ^ 32) (hq : q < 2 ^ 20)
    (h : Supplies opener s id q block) : IsBlockOf files (blockKey id q, block) := by
  obtain ⟨file, hfile, hle, heq⟩ := h.eq_blockOf hfam
  refine ⟨file, ?_, ?_, ?_⟩
  · rw [blockFile_blockKey hid hq]
    exact hfile
  · rw [blockOffset_blockKey hid hq, blockSize]
    omega
  · rw [blockOffset_blockKey hid hq, heq, blockOf]

omit [Platform] in
/-- A cached block is a block of the file. -/
theorem IsBlockOf.eq_blockOf (hid : id < 2 ^ 32) (hq : q < 2 ^ 20)
    (h : IsBlockOf files (blockKey id q, block)) :
    ∃ file, files id = some file ∧ (q + 1) * 4096 ≤ file.size ∧ block = blockOf file q := by
  obtain ⟨file, hfile, hle, heq⟩ := h
  dsimp only at hfile hle heq
  rw [blockFile_blockKey hid hq] at hfile
  rw [blockOffset_blockKey hid hq] at hle heq
  rw [blockSize] at hle
  exact ⟨file, hfile, by omega, heq⟩

/-! ### One block -/

omit [Platform] in
/-- The supplier, once the context has its file. -/
theorem readBlock_of_file (hfile : ctx.file = some handle) :
    readBlock opener i (ctx, s) =
      match handle.read (blockOffset i) blockSize with
      | some block => (.kOk, block, ({ ctx with file := some handle }, s))
      | none => (.kIOError, [], ({ ctx with file := some handle }, s)) := by
  cases hread : handle.read (blockOffset i) blockSize with
  | none => simp only [readBlock, hfile, hread]
  | some block => simp only [readBlock, hfile, hread]

omit [Platform] in
/-- The supplier that opens the file first. -/
theorem readBlock_of_kOk {s' : σ} (hfile : ctx.file = none)
    (hopen : opener s (blockFile i) = (.kOk, some handle, s')) :
    readBlock opener i (ctx, s) =
      match handle.read (blockOffset i) blockSize with
      | some block => (.kOk, block, ({ ctx with file := some handle }, s'))
      | none => (.kIOError, [], ({ ctx with file := some handle }, s')) := by
  cases hread : handle.read (blockOffset i) blockSize with
  | none => simp only [readBlock, hfile, hopen, hread]
  | some block => simp only [readBlock, hfile, hopen, hread]

omit [Platform] in
/-- The supplier whose file does not open. -/
theorem readBlock_of_ne {status : Status} {f : Option ReadableFile} {s' : σ}
    (hfile : ctx.file = none) (hopen : opener s (blockFile i) = (status, f, s'))
    (hne : status ≠ .kOk) : readBlock opener i (ctx, s) = (status, [], (ctx, s')) := by
  simp only [readBlock, hfile, hopen]
  cases status <;> first | rfl | exact absurd rfl hne

/-- The supplier reads block `q`, or it fails. -/
def Reads (opener : σ → ℕ → Status × Option ReadableFile × σ) (ctx : Context) (i id q : ℕ)
    (s₀ s : σ) : Prop :=
  (∃ handle s' block s'', Supplies opener s₀ id q block ∧ opener s₀ id = (.kOk, some handle, s') ∧
    readBlock opener i (ctx, s) = (.kOk, block, ({ ctx with file := some handle }, s''))) ∨
  (∀ block, ¬ Supplies opener s₀ id q block) ∧
    ∃ b t, readBlock opener i (ctx, s) = (failure opener s₀ id, b, t)

omit [Platform] in
theorem reads_of_handle {s' s'' : σ} (hoffset : blockOffset i = q * 4096)
    (hopen : opener s₀ id = (.kOk, some handle, s'))
    (hread : readBlock opener i (ctx, s) =
      match handle.read (blockOffset i) blockSize with
      | some block => (.kOk, block, ({ ctx with file := some handle }, s''))
      | none => (.kIOError, [], ({ ctx with file := some handle }, s''))) :
    Reads opener ctx i id q s₀ s := by
  cases hblock : handle.read (blockOffset i) blockSize with
  | none =>
    rw [hblock] at hread
    refine Or.inr ⟨?_, [], ({ ctx with file := some handle }, s''), hread.trans ?_⟩
    · rintro block ⟨handle', t, hopen', hread'⟩
      rw [hopen, Prod.mk.injEq, Prod.mk.injEq, Option.some_inj] at hopen'
      rw [← hopen'.2.1, ← hoffset, hblock] at hread'
      cases hread'
    · rw [failure, hopen, if_pos rfl]
  | some block =>
    rw [hblock] at hread
    exact Or.inl ⟨handle, s', block, s'', ⟨handle, s', hopen, hoffset ▸ hblock⟩, hopen, hread⟩

omit [Platform] in
theorem Family.reads (hfam : Family files opener) (hfile : blockFile i = id)
    (hoffset : blockOffset i = q * 4096) (hready : ctx.Ready opener id s₀ s) :
    Reads opener ctx i id q s₀ s := by
  rcases hready with ⟨hnone, rfl⟩ | ⟨handle, s', hsome, hopen⟩
  · rcases hopen : opener s id with ⟨status, f, s'⟩
    have hopen' : opener s (blockFile i) = (status, f, s') := hfile.symm ▸ hopen
    by_cases hok : status = .kOk
    · subst hok
      obtain ⟨-, handle, -, rfl, -⟩ := hfam.opened s id f s' hopen
      exact reads_of_handle hoffset hopen (readBlock_of_kOk hnone hopen')
    · refine Or.inr ⟨?_, [], (ctx, s'), ?_⟩
      · rintro block ⟨handle, t, hopened, -⟩
        rw [hopen, Prod.mk.injEq] at hopened
        exact hok hopened.1
      · rw [failure, hopen, if_neg hok]
        exact readBlock_of_ne hnone hopen' hok
  · exact reads_of_handle hoffset hopen (readBlock_of_file hsome)

/-- One round of the loop, for block `q` of file `id`: the block is in the cache or is read, and
is added; or it is neither, and the status is that of the failure. Only a block that is read
enters the cache. -/
theorem getBlock_cases (hfam : Family files opener) (hid : id < 2 ^ 32) (hq : q < 2 ^ 20)
    (hready : ctx.Ready opener id s₀ s) (hcache : ∀ x, cache.Mem x → IsBlockOf files x) :
    ∃ status ctx' cache' s', getBlock opener (blockKey id q) ctx cache s =
        (status, ctx', cache', s') ∧
      (∀ x, cache'.Mem x → cache.Mem x ∨ x.1 = blockKey id q ∧ Supplies opener s₀ id q x.2) ∧
      (status = .kOk ∧ ctx'.Ready opener id s₀ s' ∧
          (∃ block, cache.Mem (blockKey id q, block) ∨ Supplies opener s₀ id q block) ∧
          (∃ file f, files id = some file ∧ (q + 1) * 4096 ≤ file.size ∧
            ctx' = ({ ctx with file := f } : Context).addBlock (blockKey id q) (blockOf file q)) ∨
        status = failure opener s₀ id ∧ ∀ block, ¬ Supplies opener s₀ id q block) := by
  have hoffset : blockOffset (blockKey id q) = q * 4096 := blockOffset_blockKey hid hq
  have hfile : blockFile (blockKey id q) = id := blockFile_blockKey hid hq
  rcases cache.getOrCompute_cases (blockKey id q) (ctx, s) (readBlock opener (blockKey id q)) with
    ⟨v, cache', hget, hv, hmem⟩ | ⟨v, t, cache', hsup, hget, hmem⟩ |
      ⟨status, v, t, cache', hsup, hne, hget, hmem⟩
  · -- The block was cached.
    obtain ⟨file, hsome, hle, heq⟩ := (hcache _ hv).eq_blockOf hid hq
    refine ⟨.kOk, ctx.addBlock (blockKey id q) (blockOf file q), cache', s, ?_,
      fun x hx => Or.inl (hmem x hx),
      Or.inl ⟨rfl, ?_, ⟨v, Or.inl hv⟩, file, ctx.file, hsome, hle, rfl⟩⟩
    · simp only [getBlock, hget, heq]
    · rw [Context.Ready, (ctx.addBlock_fields _ _).1]
      exact hready
  · -- The block is read, and cached.
    obtain ⟨handle, s', block, s'', hsupplies, hopen, hread⟩ | ⟨-, b, t', hread⟩ :=
      hfam.reads hfile hoffset hready
    · rw [hread, Prod.mk.injEq, Prod.mk.injEq] at hsup
      obtain ⟨-, rfl, rfl⟩ := hsup
      obtain ⟨file, hsome, hle, heq⟩ := hsupplies.eq_blockOf hfam
      refine ⟨.kOk, ({ ctx with file := some handle } : Context).addBlock (blockKey id q)
        (blockOf file q), cache', s'', ?_, fun x hx => ?_,
        Or.inl ⟨rfl, ?_, ⟨block, Or.inr hsupplies⟩, file, some handle, hsome, hle, rfl⟩⟩
      · simp only [getBlock, hget, heq]
      · rcases hmem x hx with hx | rfl
        · exact Or.inl hx
        · exact Or.inr ⟨rfl, hsupplies⟩
      · rw [Context.Ready, (Context.addBlock_fields _ _ _).1]
        exact Or.inr ⟨handle, s', rfl, hopen⟩
    · rw [hread, Prod.mk.injEq] at hsup
      exact absurd hsup.1 failure_ne_kOk
  · -- The supplier fails.
    refine ⟨status, t.1, cache', t.2, ?_, fun x hx => Or.inl (hmem x hx), Or.inr ?_⟩
    · simp only [getBlock, hget]
      cases status <;> first | rfl | exact absurd rfl hne
    · obtain ⟨handle, s', block, s'', -, -, hread⟩ | ⟨hnone, b, t', hread⟩ :=
        hfam.reads hfile hoffset hready
      · rw [hread, Prod.mk.injEq] at hsup
        exact absurd hsup.1.symm hne
      · rw [hread, Prod.mk.injEq] at hsup
        exact ⟨hsup.1.symm, hnone⟩

/-! ### The loop -/

/-- What the loop from block `q` on may return for a context that ends at `m`: it assembles what
the context is for, out of blocks that were in the cache or are read, or the status is that of
a block that is not read. -/
def Outcome (files : ℕ → Option ReadableFile)
    (opener : σ → ℕ → Status × Option ReadableFile × σ) (cache : SegmentCache Bytes)
    (id q m : ℕ) (s₀ : σ) (ctx : Context) (status : Status) (ctx' : Context) : Prop :=
  status = .kOk ∧
      (∀ j, q ≤ j → j * 4096 < m →
        ∃ block, cache.Mem (blockKey id j, block) ∨ Supplies opener s₀ id j block) ∧
      (∀ file o n, files id = some file → ctx.begin_ = o → ctx.end_ = o + n →
        ctx.Holds file o n q → o / 4096 ≤ q →
          ctx'.block_ref.getD ctx'.buf = Padded.read file.data o n) ∨
    status = failure opener s₀ id ∧
      ∃ j, q ≤ j ∧ j * 4096 < m ∧ ∀ block, ¬ Supplies opener s₀ id j block

omit [Platform] in
/-- Behind the last block. -/
theorem Outcome.done (hm : ctx.end_ = m) (hdone : m ≤ q * 4096) :
    Outcome files opener cache id q m s₀ ctx .kOk ctx := by
  refine Or.inl ⟨rfl, fun j hj hlt => by omega, ?_⟩
  intro file o n _ _ hend hholds _
  exact hholds.bytes_eq (hend ▸ hm ▸ hdone)

omit [Platform] in
/-- A block that is added stands in front of those that the rest of the loop adds. -/
theorem Outcome.next {status : Status} {f : Option ReadableFile} {ctx' : Context}
    {cache' : SegmentCache Bytes} (hid : id < 2 ^ 32) (hq : q + 1 < 2 ^ 20) (hm : ctx.end_ = m)
    (hlt : q * 4096 < m) (hsome : files id = some file)
    (hhere : ∃ block, cache.Mem (blockKey id q, block) ∨ Supplies opener s₀ id q block)
    (hmem : ∀ x, cache'.Mem x → cache.Mem x ∨ x.1 = blockKey id q ∧ Supplies opener s₀ id q x.2)
    (h : Outcome files opener cache' id (q + 1) m s₀
      (({ ctx with file := f } : Context).addBlock (blockKey id q) (blockOf file q)) status ctx') :
    Outcome files opener cache id q m s₀ ctx status ctx' := by
  rcases h with ⟨hok, hblocks, hbytes⟩ | ⟨hfailure, j, hj, hjm, hnot⟩
  · refine Or.inl ⟨hok, fun j hj hjm => ?_, fun file' o n hsome' hbegin hend hholds ho => ?_⟩
    · rcases Nat.lt_or_eq_of_le hj with hj | rfl
      · obtain ⟨block, hblock⟩ := hblocks j hj hjm
        refine ⟨block, hblock.imp_left fun hcached => (hmem _ hcached).resolve_right ?_⟩
        -- What has entered the cache is another block.
        rintro ⟨hkey, -⟩
        simp only [blockKey] at hkey
        omega
      · exact hhere
    · obtain rfl : file = file' := Option.some_inj.mp (hsome.symm.trans hsome')
      have htouch : Touches o n q := ⟨ho, by
        rw [← hend, hm]
        exact hlt⟩
      obtain ⟨-, hbegin', hend'⟩ := ({ ctx with file := f } : Context).addBlock_fields
        (blockKey id q) (blockOf file q)
      exact hbytes file o n hsome (hbegin'.trans hbegin) (hend'.trans hend)
        (Context.addBlock_holds (isBlock_blockKey hid hq) hbegin hend hholds htouch) (by omega)
  · exact Or.inr ⟨hfailure, j, by omega, hjm, hnot⟩

/-- The loop from block `q` on, for a context that ends at `m`. -/
theorem getLoop_cases (fuel : ℕ) (hfam : Family files opener) (hid : id < 2 ^ 32) (hq : q < 2 ^ 20)
    (hfuel : 2 ^ 15 ≤ q + fuel) (hready : ctx.Ready opener id s₀ s)
    (hcache : ∀ x, cache.Mem x → IsBlockOf files x) (hm : ctx.end_ = m) :
    ∃ status ctx' cache' s', getLoop opener (fuel + 1) (blockKey id q) ctx cache s =
        some (status, ctx', cache', s') ∧
      (∀ x, cache'.Mem x → cache.Mem x ∨ ∃ j, q ≤ j ∧ j * 4096 < m ∧ x.1 = blockKey id j ∧
        Supplies opener s₀ id j x.2) ∧
      Outcome files opener cache id q m s₀ ctx status ctx' := by
  -- The induction is on the fuel; no file has a block from `2 ^ 15` on, so it never runs out.
  induction fuel generalizing q ctx cache s with
  | zero =>
    rw [getLoop, blockOffset_blockKey hid hq, hm]
    split_ifs with hdone
    · exact ⟨.kOk, ctx, cache, s, rfl, fun x hx => Or.inl hx, .done hm hdone⟩
    · obtain ⟨status, ctx', cache', s', hget, hmem, hcases⟩ :=
        getBlock_cases hfam hid hq hready hcache
      rcases hcases with ⟨-, -, -, file, f, hsome, hle, -⟩ | ⟨rfl, hnot⟩
      · have hbound := hfam.bounded id file hsome
        rw [kMaxFileBytes] at hbound
        omega
      · refine ⟨_, ctx', cache', s', ?_, fun x hx => (hmem x hx).imp_right fun hx => ?_,
          Or.inr ⟨rfl, q, le_rfl, Nat.lt_of_not_le hdone, hnot⟩⟩
        · simp only [hget]
          split
          · next heq => exact absurd (congrArg Prod.fst heq) failure_ne_kOk
          · next heq => rw [← heq]
        · exact ⟨q, le_rfl, Nat.lt_of_not_le hdone, hx⟩
  | succ fuel ih =>
    rw [getLoop, blockOffset_blockKey hid hq, hm]
    split_ifs with hdone
    · exact ⟨.kOk, ctx, cache, s, rfl, fun x hx => Or.inl hx, .done hm hdone⟩
    · obtain ⟨status, ctx₁, cache₁, s₁, hget, hmem, hcases⟩ :=
        getBlock_cases hfam hid hq hready hcache
      rcases hcases with ⟨rfl, hready₁, hhere, file, f, hsome, hle, rfl⟩ | ⟨rfl, hnot⟩
      · have hbound := hfam.bounded id file hsome
        rw [kMaxFileBytes] at hbound
        have hcache₁ : ∀ x, cache₁.Mem x → IsBlockOf files x := by
          rintro ⟨key, block⟩ hx
          rcases hmem _ hx with hx | ⟨rfl, hsupplies⟩
          · exact hcache _ hx
          · exact hsupplies.isBlockOf hfam hid hq
        have hm₁ := (({ ctx with file := f } : Context).addBlock_fields (blockKey id q)
          (blockOf file q)).2.2.trans hm
        obtain ⟨status, ctx', cache', s', hloop, hmem', houtcome⟩ :=
          ih (q := q + 1) (by omega) (by omega) hready₁ hcache₁ hm₁
        refine ⟨status, ctx', cache', s', ?_, fun x hx => ?_,
          houtcome.next hid (by omega) hm (Nat.lt_of_not_le hdone) hsome hhere hmem⟩
        · simp only [hget, blockKey_succ]
          exact hloop
        · rcases hmem' x hx with hx | ⟨j, hj, hjm, hx⟩
          · exact (hmem x hx).imp_right fun hx => ⟨q, le_rfl, Nat.lt_of_not_le hdone, hx⟩
          · exact Or.inr ⟨j, by omega, hjm, hx⟩
      · refine ⟨_, ctx₁, cache₁, s₁, ?_, fun x hx => (hmem x hx).imp_right fun hx => ?_,
          Or.inr ⟨rfl, q, le_rfl, Nat.lt_of_not_le hdone, hnot⟩⟩
        · simp only [hget]
          split
          · next heq => exact absurd (congrArg Prod.fst heq) failure_ne_kOk
          · next heq => rw [← heq]
        · exact ⟨q, le_rfl, Nat.lt_of_not_le hdone, hx⟩

/-! ### Any history of calls -/

/-- The loop of `Get` comes to block `q`, unless it stops before. -/
def Visits (loc : Location) (n q : ℕ) : Prop :=
  loc.offset / 4096 ≤ q ∧ q * 4096 < u32 (loc.offset + n)

instance (loc : Location) (n q : ℕ) : Decidable (Visits loc n q) :=
  inferInstanceAs (Decidable (_ ∧ _))

/-- `Get` builds the entry, unless the loop stopped with an error. -/
theorem get_of_loop {loc : Location} {status : Status} {cache' : SegmentCache Bytes} {s' : σ}
    (hloop : getLoop opener (2 ^ 20 + 1) (blockIdx loc.id loc.offset) (Context.create loc n) cache
      s = some (status, ctx, cache', s')) :
    get opener (Context.create loc n) cache s = some
      (if status = .kOk then (ctx.build.1, ctx.build.2, cache', s')
        else (status, none, cache', s')) := by
  have hctx : blockIdx (Context.create loc n).file_idx (Context.create loc n).begin_ =
    blockIdx loc.id loc.offset := rfl
  simp only [get, hctx, hloop, Option.map_some]
  cases status <;> rfl

/-- What a context with these bytes is built to. -/
theorem Context.build_eq {bytes : Bytes} (h : ctx.block_ref.getD ctx.buf = bytes) :
    ctx.build.2 = (Entry.unPack (ReadBuffer.ofBytes bytes)).1 ∧
      ctx.build.1 = if ctx.build.2.isSome then .kOk else .kCorruption := by
  rcases hunpack : Entry.unPack (ReadBuffer.ofBytes bytes) with ⟨_ | e, rest⟩
  · simp [Context.build, h, hunpack]
  · simp [Context.build, h, hunpack]

/-- A call of `Get` decodes the bytes of its range, or reports that a block of it is not read. -/
theorem get_cases (hfam : Family files opener) {loc : Location} (hid : loc.id < 2 ^ 32)
    (ho : loc.offset < 2 ^ 32) (hcache : ∀ x, cache.Mem x → IsBlockOf files x) (n : ℕ) (s : σ) :
    ∃ status entry cache' s', get opener (Context.create loc n) cache s =
        some (status, entry, cache', s') ∧
      (∀ x, cache'.Mem x → cache.Mem x ∨ ∃ q, Visits loc n q ∧ x.1 = blockKey loc.id q ∧
        Supplies opener s loc.id q x.2) ∧
      ((∀ q, Visits loc n q →
            ∃ block, cache.Mem (blockKey loc.id q, block) ∨ Supplies opener s loc.id q block) ∧
          (∀ file, files loc.id = some file → loc.offset + n ≤ file.size →
            entry = (Entry.unPack (ReadBuffer.ofBytes
                (Padded.read file.data loc.offset n))).1 ∧
              status = if entry.isSome then .kOk else .kCorruption) ∨
        (status = failure opener s loc.id ∧ entry = none) ∧
          ∃ q, Visits loc n q ∧ ∀ block, ¬ Supplies opener s loc.id q block) := by
  obtain ⟨fuel, hfuel⟩ : ∃ fuel, fuel = 2 ^ 20 := ⟨_, rfl⟩
  have hready : (Context.create loc n).Ready opener loc.id s s := Or.inl ⟨rfl, rfl⟩
  obtain ⟨status, ctx, cache', s', hloop, hmem, hcases⟩ := getLoop_cases
    fuel (q := loc.offset / 4096) hfam hid (by omega) (by omega) hready hcache rfl
  rw [← blockIdx_eq, hfuel] at hloop
  have hget := get_of_loop hloop
  have hmem' : ∀ x, cache'.Mem x → cache.Mem x ∨ ∃ q, Visits loc n q ∧ x.1 = blockKey loc.id q ∧
      Supplies opener s loc.id q x.2 := by
    intro x hx
    refine (hmem x hx).imp_right ?_
    rintro ⟨q, hq, hlt, hsupplies⟩
    exact ⟨q, ⟨hq, hlt⟩, hsupplies⟩
  rcases hcases with ⟨rfl, hblocks, hbytes⟩ | ⟨rfl, q, hq, hlt, hnot⟩
  · rw [if_pos rfl] at hget
    refine ⟨_, _, cache', s', hget, hmem',
      Or.inl ⟨fun q hq => hblocks q hq.1 hq.2, fun file hsome hend => ?_⟩⟩
    have hbound := hfam.bounded loc.id file hsome
    rw [kMaxFileBytes] at hbound
    have hzero : min (max (loc.offset / 4096 * 4096) loc.offset) (loc.offset + n) -
        loc.offset = 0 := by omega
    refine Context.build_eq (hbytes file loc.offset n hsome rfl (u32_of_lt (by omega)) ?_ le_rfl)
    -- Nothing is copied before the first block.
    exact Or.inl ⟨rfl, by rw [hzero, Padded.read_zero]; rfl⟩
  · rw [if_neg failure_ne_kOk] at hget
    exact ⟨_, none, cache', s', hget, hmem', Or.inr ⟨⟨rfl, rfl⟩, q, ⟨hq, hlt⟩, hnot⟩⟩

omit [Platform] in
/-- A call leaves only blocks of the files in the cache. -/
theorem isBlockOf_of_mem (hfam : Family files opener) {loc : Location} {cache' : SegmentCache Bytes}
    (hid : loc.id < 2 ^ 32) (hcache : ∀ x, cache.Mem x → IsBlockOf files x)
    (hmem : ∀ x, cache'.Mem x → cache.Mem x ∨ ∃ q, Visits loc n q ∧ x.1 = blockKey loc.id q ∧
      Supplies opener s loc.id q x.2) : ∀ x, cache'.Mem x → IsBlockOf files x := by
  rintro ⟨key, block⟩ hx
  rcases hmem _ hx with hx | ⟨q, ⟨-, hlt⟩, rfl, hsupplies⟩
  · exact hcache _ hx
  · have : u32 (loc.offset + n) < 2 ^ 32 := Nat.mod_lt _ (Nat.two_pow_pos 32)
    exact hsupplies.isBlockOf hfam hid (by omega)

/-- Every call returns, and leaves only blocks of the files in the cache. -/
theorem exists_getAll (hfam : Family files opener) (calls : List (Location × ℕ × σ))
    (hcalls : ∀ call ∈ calls, call.1.id < 2 ^ 32 ∧ call.1.offset < 2 ^ 32)
    (hcache : ∀ x, cache.Mem x → IsBlockOf files x) :
    ∃ cache', getAll opener cache calls = some cache' ∧
      ∀ x, cache'.Mem x → IsBlockOf files x := by
  induction calls generalizing cache with
  | nil => exact ⟨cache, rfl, hcache⟩
  | cons call calls ih =>
    obtain ⟨loc, length, s⟩ := call
    obtain ⟨hid, ho⟩ : loc.id < 2 ^ 32 ∧ loc.offset < 2 ^ 32 := hcalls _ List.mem_cons_self
    obtain ⟨status, entry, cache₁, s', hget, hmem, -⟩ := get_cases hfam hid ho hcache length s
    obtain ⟨cache', hall, hcache'⟩ :=
      ih (fun x hx => hcalls x (List.mem_cons_of_mem _ hx)) (isBlockOf_of_mem hfam hid hcache hmem)
    refine ⟨cache', ?_, hcache'⟩
    simp only [getAll, List.foldlM_cons, hget, Option.map_some]
    exact hall

/-- After any calls of `Get`, a call for a range inside a file decodes exactly the bytes of that
range, or reports the error of a block that it could not read. A block that is not cached and
not read is reported, and only what is read enters the cache, so that it always has blocks of
the files. -/
theorem get_exact (hfam : Family files opener) (segments capacity : ℕ)
    (calls : List (Location × ℕ × σ))
    (hcalls : ∀ call ∈ calls, call.1.id < 2 ^ 32 ∧ call.1.offset < 2 ^ 32) :
    ∃ cache, getAll opener (create segments capacity) calls = some cache ∧
      (∀ x, cache.Mem x → IsBlockOf files x) ∧
      ∀ (loc : Location) (n : ℕ) (s : σ), loc.id < 2 ^ 32 → loc.offset < 2 ^ 32 →
        ∃ status entry cache' s', get opener (Context.create loc n) cache s =
            some (status, entry, cache', s') ∧
          (∀ file, files loc.id = some file → loc.offset + n ≤ file.size →
            (entry = (Entry.unPack (ReadBuffer.ofBytes
                  (Padded.read file.data loc.offset n))).1 ∧
                status = if entry.isSome then .kOk else .kCorruption) ∨
              (status = failure opener s loc.id ∧ entry = none) ∧
                ∃ q, Visits loc n q ∧ ∀ block, ¬ Supplies opener s loc.id q block) ∧
          (∀ q, Visits loc n q → (∀ block, ¬ cache.Mem (blockKey loc.id q, block)) →
            (∀ block, ¬ Supplies opener s loc.id q block) →
              status = failure opener s loc.id ∧ entry = none) ∧
          ∀ x, cache'.Mem x → cache.Mem x ∨ ∃ q, Visits loc n q ∧ x.1 = blockKey loc.id q ∧
            Supplies opener s loc.id q x.2 := by
  have hempty : ∀ x, (create segments capacity).Mem x → IsBlockOf files x := by
    rintro x ⟨i, hx⟩
    cases hx
  obtain ⟨cache, hall, hcache⟩ := exists_getAll hfam calls hcalls hempty
  refine ⟨cache, hall, hcache, fun loc n s hid ho => ?_⟩
  obtain ⟨status, entry, cache', s', hget, hmem, hcases⟩ := get_cases hfam hid ho hcache n s
  refine ⟨status, entry, cache', s', hget, fun file hsome hend => ?_,
    fun q hq hout hnot => ?_, hmem⟩
  · exact hcases.imp_left fun hok => hok.2 file hsome hend
  · rcases hcases with ⟨hblocks, -⟩ | ⟨hfailed, -⟩
    · obtain ⟨block, hcached | hsupplies⟩ := hblocks q hq
      · exact absurd hcached (hout block)
      · exact absurd hsupplies (hnot block)
    · exact hfailed

end

open scoped Reference

/-- A record of 200 bytes. -/
def acrossEntry : Entry :=
  { type := .kSet, checksum := 0, timestamp := 0, key := [107], value := List.replicate 185 1 }

/-- A file of two blocks, with the record across both. -/
def acrossFile : ReadableFile :=
  { data := Padded.write (fun _ => 0) 4000 acrossEntry.pack, size := 8192 }

theorem unPack_acrossFile :
    (Entry.unPack (ReadBuffer.ofBytes (Padded.read acrossFile.data 4000 200))).1 =
      some acrossEntry := by
  decide +kernel

def twoBlocks : ℕ → Option ReadableFile := fun id => if id = 1 then some acrossFile else none

/-- Its opener. The second block is not read as long as it is broken. -/
def openTwoBlocks (broken : Bool) (id : ℕ) : Status × Option ReadableFile × Bool :=
  match twoBlocks id with
  | some file => (.kOk, some { file with fails := fun o => broken && o == 4096 }, broken)
  | none => (.kIOError, none, broken)

theorem family_twoBlocks : Family twoBlocks openTwoBlocks where
  aligned := by
    intro id file hfile
    unfold twoBlocks at hfile
    split_ifs at hfile
    obtain rfl := Option.some_inj.mp hfile
    exact ⟨2, rfl⟩
  bounded := by
    intro id file hfile
    unfold twoBlocks at hfile
    split_ifs at hfile
    obtain rfl := Option.some_inj.mp hfile
    decide
  opened := by
    intro s id opened s' hopen
    unfold openTwoBlocks at hopen
    split at hopen
    · next file hfile =>
      obtain ⟨-, rfl, -⟩ := hopen
      exact ⟨file, _, hfile, rfl, rfl, rfl⟩
    · cases hopen

/-- The record is read across both blocks: first the second block is broken, and the call fails,
then it is not, and the call finds the first block in the cache. -/
theorem get_exact_twoBlocks :
    (∃ cache' s', get openTwoBlocks (Context.create ⟨1, 4000⟩ 200) (create 4 65536) true =
      some (.kIOError, none, cache', s')) ∧
    ∃ cache cache' s', getAll openTwoBlocks (create 4 65536) [(⟨1, 4000⟩, 200, true)] =
        some cache ∧
      get openTwoBlocks (Context.create ⟨1, 4000⟩ 200) cache false =
        some (.kOk, some acrossEntry, cache', s') := by
  constructor
  · obtain ⟨cache, hall, -, hget⟩ := get_exact family_twoBlocks 4 65536 [] (by simp)
    obtain rfl := Option.some_inj.mp hall
    obtain ⟨status, entry, cache', s', hget, -, hfails, -⟩ :=
      hget ⟨1, 4000⟩ 200 true (by decide) (by decide)
    obtain ⟨rfl, rfl⟩ := hfails 1 (by decide) (by rintro block ⟨i, hx⟩; cases hx) (by
      rintro block ⟨handle, t, hopen, hread⟩
      obtain ⟨-, rfl, -⟩ := hopen
      cases hread)
    exact ⟨cache', s', hget⟩
  · obtain ⟨cache, hall, -, hget⟩ := get_exact family_twoBlocks 4 65536 [(⟨1, 4000⟩, 200, true)]
      (by decide)
    obtain ⟨status, entry, cache', s', hget, hin, -⟩ :=
      hget ⟨1, 4000⟩ 200 false (by decide) (by decide)
    refine ⟨cache, cache', s', hall, ?_⟩
    obtain ⟨hentry, hstatus⟩ := (hin acrossFile rfl (by decide)).resolve_right (by
      -- No read fails now.
      rintro ⟨-, q, hq, hnot⟩
      have hle : q * 4096 + blockSize ≤ 8192 := by
        have hlt : q * 4096 < 4200 := hq.2
        rw [blockSize]
        omega
      exact absurd ⟨_, false, rfl, if_pos ⟨hle, rfl⟩⟩ (hnot _))
    have hdecode : entry = some acrossEntry := hentry.trans unPack_acrossFile
    subst hdecode
    rw [hget, hstatus]
    rfl

end PedroDB.ReadCache
