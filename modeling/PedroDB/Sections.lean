import PedroDB.Process

/-!
# The sections of a `Get`

When nobody else takes a section in between, the sections of `Get` do what the sequential
`handleGet` does.

## Main definitions

* `Getting.Leads` — the sections of `Get` lead from one state to another

## Main results

* `Opening.run_acquireDataFile` — the sections of `AcquireDataFile`, one after another
* `SegmentCache.getOrCompute_eq` — `GetOrCompute` as a lookup and an insertion
* `Getting.leads_handleGet` — the sections of `HandleGet`
* `Process.run_handleGet` — a call of `Get` in the process, which nobody disturbs
-/

namespace PedroDB

open Transition

/-- Where `AcquireDataFile` stands when it has returned. -/
def Opening.done : Status → Opening
  | .kOk => .opened
  | status => .failed status

theorem Opening.done_of_ne {status : Status} (h : status ≠ .kOk) : done status = .failed status := by
  cases status with
  | kOk => exact absurd rfl h
  | _ => rfl

/-- The sections of `AcquireDataFile`, one after another. -/
theorem Opening.run_acquireDataFile (id : ℕ) (fm : FileManager) :
    ∃ as : List Unit, Run (fun (s : Opening × FileManager) _ => s.1.next id s.2) (.lookup, fm) as
      (done (fm.acquireDataFile id).1, (fm.acquireDataFile id).2) := by
  by_cases hactive : id = fm.activeFileId
  · refine ⟨[()], ?_⟩
    simp [Opening.next, FileManager.acquireDataFile, hactive, done]
  · rcases hget : fm.openFiles.get id with ⟨_ | u, openFiles⟩
    · by_cases hlinked : (fm.dataFiles id).linked = true
      · refine ⟨[(), (), ()], ?_⟩
        simp [Opening.next, FileManager.acquireDataFile, hactive, hget, hlinked, done]
      · refine ⟨[(), ()], ?_⟩
        simp [Opening.next, FileManager.acquireDataFile, hactive, hget, hlinked, done]
    · refine ⟨[()], ?_⟩
      simp [Opening.next, FileManager.acquireDataFile, hactive, hget, done]

variable [Platform]

/-- `GetOrCompute` is a `Get`, and a `Put` of what the supplier returns. -/
theorem SegmentCache.getOrCompute_eq {σ ν : Type*} (c : SegmentCache ν) (key : ℕ) (s : σ)
    (supplier : σ → Status × ν × σ) :
    c.getOrCompute key s supplier =
      match c.get key with
      | (some value, c) => (.kOk, some value, c, s)
      | (none, c) =>
        match supplier s with
        | (.kOk, value, s) => (.kOk, some value, c.put key value, s)
        | (status, value, s) => (status, some value, c, s) := by
  rcases hseg : (c.segments (c.locate key)).get key with ⟨_ | value, seg⟩
  · have hput : ∀ value, ({ c with segments := Function.update c.segments (c.locate key) seg } :
        SegmentCache ν).put key value =
          { c with
            segments := Function.update (Function.update c.segments (c.locate key) seg)
              (c.locate key) (seg.put key value) } := by
      intro value
      simp only [put, locate, Function.update_self]
    rcases hsup : supplier s with ⟨status, value, s'⟩
    cases status <;> simp only [getOrCompute, get, hseg, hsup, hput]
  · simp only [getOrCompute, get, hseg]

namespace Getting

variable (opt : Options)

/-- The sections of `Get` lead from one state to another, with no other in between. -/
def Leads (s t : Getting × DBImpl) : Prop :=
  ∃ as : List Unit, Run (fun (s : Getting × DBImpl) _ => s.1.next opt s.2) s as t

variable {opt} {s t u : Getting × DBImpl} {db : DBImpl} {fm fm' : FileManager} {o o' : Opening}
  {ctx ctx' : ReadCache.Context} {cache cache' : SegmentCache Bytes} {file : Option ℕ} {i id : ℕ}
  {status : Status}

theorem Leads.refl (s : Getting × DBImpl) : Leads opt s s := ⟨[], run_nil.mpr rfl⟩

theorem Leads.trans (h : Leads opt s t) (h' : Leads opt t u) : Leads opt s u := by
  obtain ⟨as, has⟩ := h
  obtain ⟨bs, hbs⟩ := h'
  exact ⟨as ++ bs, run_append.mpr ⟨t, has, hbs⟩⟩

theorem Leads.of_next (h : s.1.next opt s.2 = some t) : Leads opt s t :=
  ⟨[()], run_cons.mpr ⟨t, h, run_nil.mpr rfl⟩⟩

/-- While `Get` stands at `f o`, it takes the sections of `AcquireDataFile`. -/
theorem leads_opening (db : DBImpl) {f : Opening → Getting} {as : List Unit}
    (hf : ∀ o fm, (o.next id fm).isSome → (f o).next opt { db with fileManager := fm } =
      (o.next id fm).map fun (o, fileManager) => (f o, { db with fileManager }))
    (h : Run (fun (s : Opening × FileManager) _ => s.1.next id s.2) (o, fm) as (o', fm')) :
    Leads opt (f o, { db with fileManager := fm }) (f o', { db with fileManager := fm' }) := by
  induction as generalizing o fm with
  | nil =>
    obtain ⟨rfl, rfl⟩ := Prod.mk.inj (run_nil.mp h)
    exact .refl _
  | cons a as ih =>
    obtain ⟨⟨o₁, fm₁⟩, hnext, hrest⟩ := run_cons.mp h
    dsimp only at hnext
    refine .trans (.of_next ?_) (ih hrest)
    rw [hf o fm (by rw [hnext]; rfl), hnext]
    rfl

/-- A call of `AcquireDataFile` from its first section to its last. -/
theorem leads_acquireDataFile (db : DBImpl) {f : Opening → Getting}
    (hf : ∀ o fm, (o.next id fm).isSome → (f o).next opt { db with fileManager := fm } =
      (o.next id fm).map fun (o, fileManager) => (f o, { db with fileManager }))
    (hacq : fm.acquireDataFile id = (status, fm')) :
    Leads opt (f .lookup, { db with fileManager := fm })
      (f (Opening.done status), { db with fileManager := fm' }) := by
  obtain ⟨as, has⟩ := Opening.run_acquireDataFile id fm
  rw [hacq] at has
  exact leads_opening db hf has

theorem leads_direct (dir : Dir) (buffer : ReadBuffer) :
    Leads opt (.direct dir .lookup, db) (.returned (DBImpl.readDirectly opt dir db buffer).1,
      (DBImpl.readDirectly opt dir db buffer).2.1) := by
  rcases hacq : db.fileManager.acquireDataFile dir.loc.id with ⟨status, fm⟩
  have hopening : Leads opt (.direct dir .lookup, db)
      (.direct dir (Opening.done status), { db with fileManager := fm }) := by
    refine leads_acquireDataFile db (f := .direct dir) (fun o fm hsome => ?_) hacq
    cases o with
    | opened => cases hsome
    | failed status => cases hsome
    | _ => rfl
  refine hopening.trans (.of_next ?_)
  by_cases hstatus : status = .kOk
  · subst hstatus
    rcases hvalid : ((RecordIterator.create kMaxFileBytes).seek dir.loc.offset).1.valid
      (fm.dataFiles dir.loc.id).data ReadBuffer.empty with ⟨_ | _, it, rest⟩
    · simp only [Opening.done, next, readRecord, DBImpl.readDirectly, hacq, hvalid]
    · simp only [Opening.done, next, readRecord, DBImpl.readDirectly, hacq, hvalid]
  · rw [Opening.done_of_ne hstatus]
    simp only [next, DBImpl.readDirectly, hacq]

/-! ### The read cache -/

omit [Platform] in
/-- Adding a block does not look at the file. -/
theorem addBlock_with (ctx : ReadCache.Context) (f : Option ReadableFile) (i : ℕ) (bytes : Bytes) :
    ({ ctx with file := f } : ReadCache.Context).addBlock i bytes =
      { ctx.addBlock i bytes with file := f } := by
  have hslice : ∀ slice : Bytes,
      (if slice.length = ctx.size then { ctx with file := f, block_ref := some slice }
        else ({ ctx with file := f, buf := ctx.buf ++ slice } : ReadCache.Context)) =
      { (if slice.length = ctx.size then { ctx with block_ref := some slice }
          else { ctx with buf := ctx.buf ++ slice } : ReadCache.Context) with file := f } := by
    intro slice
    split_ifs
    · rfl
    · rfl
  exact hslice _

omit [Platform] in
theorem addBlock_file (ctx : ReadCache.Context) (i : ℕ) (bytes : Bytes) :
    (ctx.addBlock i bytes).file = ctx.file := by
  simp only [ReadCache.Context.addBlock]
  split_ifs
  · rfl
  · rfl

/-- What a round that ends with `status` leaves `Get` with. -/
def afterBlock (ctx : ReadCache.Context) (i : ℕ) (file : Option ℕ) : Status → Getting
  | .kOk => .block { ctx with file := none } i file
  | status => .returned { status, value := none }

omit [Platform] in
theorem afterBlock_of_ne (ctx : ReadCache.Context) (i : ℕ) (file : Option ℕ)
    (h : status ≠ .kOk) : afterBlock ctx i file status = .returned { status, value := none } := by
  cases status with
  | kOk => exact absurd rfl h
  | _ => rfl

/-- The supplier, when it has the file. -/
theorem leads_fillBlock (opt : Options) (db : DBImpl) (cache : SegmentCache Bytes)
    {f : ReadableFile} {b : Bytes} {ctx₁ : ReadCache.Context}
    (hf : fm.readable id = f) (hid : file.getD (ReadCache.blockFile i) = id)
    (hread : (match f.read (ReadCache.blockOffset i) ReadCache.blockSize with
      | some bytes => (Status.kOk, bytes, ({ ctx with file := some f }, fm))
      | none => (.kIOError, [], ({ ctx with file := some f }, fm))) = (status, b, (ctx₁, fm'))) :
    ctx₁.file = (some id).map fm'.readable ∧
      Leads opt (.fill { ctx with file := none } i file .opened,
          { db with readCache := cache, fileManager := fm })
        (afterBlock (ctx₁.addBlock i b) (i + 1) (some id) status,
          { db with
            readCache := if status = .kOk then cache.put i b else cache
            fileManager := fm' }) := by
  rcases hblock : f.read (ReadCache.blockOffset i) ReadCache.blockSize with _ | bytes
  · rw [hblock] at hread
    obtain ⟨rfl, rfl, rfl, rfl⟩ : Status.kIOError = status ∧ [] = b ∧ _ = ctx₁ ∧ fm = fm' := by
      simpa only [Prod.mk.injEq] using hread
    refine ⟨congrArg some hf.symm, .of_next ?_⟩
    simp only [next, hid, hf, fillBlock, hblock]
    rfl
  · rw [hblock] at hread
    obtain ⟨rfl, rfl, rfl, rfl⟩ : Status.kOk = status ∧ bytes = b ∧ _ = ctx₁ ∧ fm = fm' := by
      simpa only [Prod.mk.injEq] using hread
    refine ⟨congrArg some hf.symm, .of_next ?_⟩
    simp only [next, hid, hf, fillBlock, hblock, addBlock_with, afterBlock, if_true]

/-- The supplier, which opens the file unless it has been opened. -/
theorem leads_readBlock (opt : Options) (db : DBImpl) (cache : SegmentCache Bytes) {b : Bytes}
    {ctx₁ : ReadCache.Context}
    (hfile : ctx.file = file.map fm.readable)
    (hread : ReadCache.readBlock DBImpl.fileOpener i (ctx, fm) = (status, b, (ctx₁, fm'))) :
    ∃ file', ctx₁.file = file'.map fm'.readable ∧
      Leads opt (.fill { ctx with file := none } i file (if file.isSome then .opened else .lookup),
          { db with readCache := cache, fileManager := fm })
        (afterBlock (ctx₁.addBlock i b) (i + 1) file' status,
          { db with
            readCache := if status = .kOk then cache.put i b else cache
            fileManager := fm' }) := by
  cases file with
  | some id =>
    -- The call has its handle, and reads.
    obtain ⟨f, hf⟩ : ∃ f, fm.readable id = f := ⟨_, rfl⟩
    have hopened : ctx.file = some f := hfile.trans (congrArg some hf)
    simp only [ReadCache.readBlock, hopened] at hread
    exact ⟨some id, leads_fillBlock opt db cache hf rfl hread⟩
  | none =>
    have hclosed : ctx.file = none := hfile
    -- Sections of the file cache open the file first.
    rcases hacq : fm.acquireDataFile (ReadCache.blockFile i) with ⟨st, fm₁⟩
    have hopening : Leads opt
        (.fill { ctx with file := none } i none .lookup,
          { db with readCache := cache, fileManager := fm })
        (.fill { ctx with file := none } i none (Opening.done st),
          { db with readCache := cache, fileManager := fm₁ }) := by
      refine leads_acquireDataFile { db with readCache := cache }
        (f := .fill { ctx with file := none } i none) (fun o fm hsome => ?_) hacq
      cases o with
      | opened => cases hsome
      | failed status => cases hsome
      | _ => rfl
    by_cases hst : st = .kOk
    · subst hst
      obtain ⟨f, hf⟩ : ∃ f, fm₁.readable (ReadCache.blockFile i) = f := ⟨_, rfl⟩
      simp only [ReadCache.readBlock, hclosed, DBImpl.fileOpener, hacq, hf] at hread
      obtain ⟨hfile', hleads⟩ := leads_fillBlock opt db cache hf Option.getD_none hread
      exact ⟨some (ReadCache.blockFile i), hfile', hopening.trans hleads⟩
    · -- The file does not open, and the call ends with that status.
      have hfailed : (st, ([] : Bytes), (ctx, fm₁)) = (status, b, (ctx₁, fm')) := by
        rw [← hread]
        cases st with
        | kOk => exact absurd rfl hst
        | _ => simp only [ReadCache.readBlock, hclosed, DBImpl.fileOpener, hacq]
      simp only [Prod.mk.injEq] at hfailed
      obtain ⟨rfl, rfl, rfl, rfl⟩ := hfailed
      refine ⟨none, hfile, hopening.trans (.of_next ?_)⟩
      rw [Opening.done_of_ne hst, afterBlock_of_ne _ _ _ hst, if_neg hst]
      rfl

/-- One round of the loop of the read cache. -/
theorem leads_getBlock (opt : Options) (db : DBImpl) (hfile : ctx.file = file.map fm.readable)
    (hlt : ReadCache.blockOffset i < ctx.end_)
    (hget : ReadCache.getBlock DBImpl.fileOpener i ctx cache fm = (status, ctx', cache', fm')) :
    ∃ file', ctx'.file = file'.map fm'.readable ∧
      Leads opt (.block { ctx with file := none } i file,
          { db with readCache := cache, fileManager := fm })
        (afterBlock ctx' (i + 1) file' status,
          { db with readCache := cache', fileManager := fm' }) := by
  rw [ReadCache.getBlock, SegmentCache.getOrCompute_eq] at hget
  rcases hcached : cache.get i with ⟨_ | bytes, c⟩
  · -- A miss.
    rcases hread : ReadCache.readBlock DBImpl.fileOpener i (ctx, fm) with ⟨st, b, ctx₁, fm₁⟩
    obtain ⟨file', hfile', hleads⟩ :=
      leads_readBlock opt db c hfile hread
    have hmiss : Leads opt
        (.block { ctx with file := none } i file,
          { db with readCache := cache, fileManager := fm })
        (.fill { ctx with file := none } i file (if file.isSome then .opened else .lookup),
          { db with readCache := c, fileManager := fm }) := by
      refine .of_next ?_
      simp only [next, if_neg hlt.not_ge, hcached]
    replace hleads := hmiss.trans hleads
    rw [hcached, hread] at hget
    -- The block is stored, and added.
    by_cases hst : st = .kOk
    · subst hst
      simp only [Prod.mk.injEq] at hget
      obtain ⟨rfl, rfl, rfl, rfl⟩ := hget
      rw [if_pos rfl] at hleads
      exact ⟨file', (addBlock_file ctx₁ i b).trans hfile', hleads⟩
    · have hfailed : (st, ctx₁, c, fm₁) = (status, ctx', cache', fm') := by
        rw [← hget]
        cases st with
        | kOk => exact absurd rfl hst
        | _ => rfl
      simp only [Prod.mk.injEq] at hfailed
      obtain ⟨rfl, rfl, rfl, rfl⟩ := hfailed
      rw [if_neg hst, afterBlock_of_ne _ _ _ hst] at hleads
      exact ⟨file', hfile', by rwa [afterBlock_of_ne _ _ _ hst]⟩
  · -- A hit.
    rw [hcached] at hget
    simp only [Prod.mk.injEq] at hget
    obtain ⟨rfl, rfl, rfl, rfl⟩ := hget
    refine ⟨file, (addBlock_file ctx i bytes).trans hfile, .of_next ?_⟩
    simp only [next, if_neg hlt.not_ge, hcached, addBlock_with, afterBlock]

/-- The loop of the read cache, and what follows it. -/
theorem leads_getLoop (opt : Options) (db : DBImpl) {fuel : ℕ}
    (hfile : ctx.file = file.map fm.readable)
    (hloop : ReadCache.getLoop DBImpl.fileOpener fuel i ctx cache fm =
      some (status, ctx', cache', fm')) :
    Leads opt (.block { ctx with file := none } i file,
        { db with readCache := cache, fileManager := fm })
      (.returned (if status = .kOk then buildReply opt ctx' else { status, value := none }),
        { db with readCache := cache', fileManager := fm' }) := by
  induction fuel generalizing i ctx cache fm file with
  | zero => cases hloop
  | succ fuel ih =>
    rw [ReadCache.getLoop] at hloop
    -- The context ends here.
    by_cases hdone : ctx.end_ ≤ ReadCache.blockOffset i
    · simp only [if_pos hdone, Option.some.injEq, Prod.mk.injEq] at hloop
      obtain ⟨rfl, rfl, rfl, rfl⟩ := hloop
      refine .of_next ?_
      simp only [next, if_pos hdone, if_true]
      rfl
    · rw [if_neg hdone] at hloop
      rcases hget : ReadCache.getBlock DBImpl.fileOpener i ctx cache fm with ⟨st, ctx₁, c, fm₁⟩
      obtain ⟨file', hfile', hleads⟩ :=
        leads_getBlock opt db hfile (not_le.mp hdone) hget
      rw [hget] at hloop
      -- The block is added, and the loop goes on.
      by_cases hst : st = .kOk
      · subst hst
        exact hleads.trans (ih hfile' hloop)
      · have hfailed : some (st, ctx₁, c, fm₁) = some (status, ctx', cache', fm') := by
          rw [← hloop]
          cases st with
          | kOk => exact absurd rfl hst
          | _ => rfl
        simp only [Option.some.injEq, Prod.mk.injEq] at hfailed
        obtain ⟨rfl, rfl, rfl, rfl⟩ := hfailed
        rw [afterBlock_of_ne _ _ _ hst] at hleads
        rw [if_neg hst]
        exact hleads

theorem leads_readCached {dir : Dir} {reply : Reply} {db' : DBImpl}
    (h : DBImpl.readCached opt dir db = some (reply, db')) :
    Leads opt (.block (ReadCache.Context.create dir.loc dir.entry_size)
        (ReadCache.blockIdx dir.loc.id dir.loc.offset) none, db) (.returned reply, db') := by
  obtain ⟨⟨st, entry, cache, fm⟩, hget, hreply⟩ := Option.map_eq_some_iff.mp h
  obtain ⟨⟨status, ctx, c, fm'⟩, hloop, hbuilt⟩ := Option.map_eq_some_iff.mp hget
  -- The call has no handle yet.
  have hclosed : (ReadCache.Context.create dir.loc dir.entry_size).file =
      Option.map db.fileManager.readable none := rfl
  have hleads := leads_getLoop opt db hclosed hloop
  by_cases hok : status = .kOk
  · subst hok
    simp only [Prod.mk.injEq] at hbuilt
    obtain ⟨rfl, rfl, rfl, rfl⟩ := hbuilt
    rw [if_pos rfl] at hleads
    rcases hunpack : Entry.unPack (ReadBuffer.ofBytes (ctx.block_ref.getD ctx.buf)) with
      ⟨_ | e, rest⟩
    · simp only [ReadCache.Context.build, hunpack, Prod.mk.injEq] at hreply
      obtain ⟨rfl, rfl⟩ := hreply
      simp only [buildReply, ReadCache.Context.build, hunpack] at hleads
      exact hleads
    · simp only [ReadCache.Context.build, hunpack, Prod.mk.injEq] at hreply
      obtain ⟨rfl, rfl⟩ := hreply
      simp only [buildReply, ReadCache.Context.build, hunpack] at hleads
      exact hleads
  · -- The loop has failed, and what it returns is the status.
    have hfailed : (status, (none : Option Entry), c, fm') = (st, entry, cache, fm) := by
      rw [← hbuilt]
      cases status with
      | kOk => exact absurd rfl hok
      | _ => rfl
    simp only [Prod.mk.injEq] at hfailed
    obtain ⟨rfl, rfl, rfl, rfl⟩ := hfailed
    have hreturned : (({ status, value := none } : Reply),
        ({ db with readCache := c, fileManager := fm' } : DBImpl)) = (reply, db') := by
      rw [← hreply]
      cases status with
      | kOk => exact absurd rfl hok
      | _ => rfl
    obtain ⟨rfl, rfl⟩ := Prod.mk.inj hreturned
    rw [if_neg hok] at hleads
    exact hleads

/-- The sections of `HandleGet`, one after another, do what the sequential function does. -/
theorem leads_handleGet {use_read_cache : Bool} {key : Key} {buffer rest : ReadBuffer}
    {reply : Reply} {db' : DBImpl}
    (h : DBImpl.handleGet opt use_read_cache key db buffer = some (reply, db', rest)) :
    Leads opt (.lookup use_read_cache key, db) (.returned reply, db') := by
  rw [DBImpl.handleGet] at h
  rcases hfind : db.find key with _ | dir
  · rw [hfind] at h
    simp only [Option.some.injEq, Prod.mk.injEq] at h
    obtain ⟨rfl, rfl, -⟩ := h
    refine .of_next ?_
    simp only [next, hfind]
  · rw [hfind] at h
    dsimp only at h
    by_cases hdirect : DBImpl.directlyRead opt use_read_cache dir db = true
    · rw [if_pos hdirect, Option.some_inj] at h
      have hleads : Leads opt (.direct dir .lookup, db) _ := leads_direct dir buffer
      rw [h] at hleads
      refine .trans (.of_next ?_) hleads
      simp only [next, hfind, if_pos hdirect]
    · rw [if_neg hdirect] at h
      obtain ⟨⟨reply', db''⟩, hcached, heq⟩ := Option.map_eq_some_iff.mp h
      obtain ⟨rfl, rfl, -⟩ : reply' = reply ∧ db'' = db' ∧ _ := by
        simpa only [Prod.mk.injEq] using heq
      refine .trans (.of_next ?_) (leads_readCached hcached)
      simp only [next, hfind, if_neg hdirect]

end Getting

/-- A call of `Get` that nobody disturbs returns what the sequential function does. -/
theorem Process.run_handleGet {opt : Options} {s : Process} {use_read_cache : Bool} {key : Key}
    {buffer rest : ReadBuffer} {reply : Reply} {db' : DBImpl} (hidle : s.get = .idle)
    (h : DBImpl.handleGet opt use_read_cache key s.db buffer = some (reply, db', rest)) :
    ∃ n, Run (step opt) s (.call use_read_cache key :: List.replicate n .get)
      { s with db := db', get := .returned reply } := by
  have hrun : ∀ (as : List Unit) (g g' : Getting) (db db' : DBImpl),
      Run (fun (s : Getting × DBImpl) _ => s.1.next opt s.2) (g, db) as (g', db') →
        Run (step opt) { s with db, get := g } (List.replicate as.length .get)
          { s with db := db', get := g' } := by
    intro as
    induction as with
    | nil =>
      intro g g' db db' h
      obtain ⟨rfl, rfl⟩ := Prod.mk.inj (run_nil.mp h)
      exact run_nil.mpr rfl
    | cons a as ih =>
      intro g g' db db' h
      obtain ⟨⟨g₁, db₁⟩, hnext, hrest⟩ := run_cons.mp h
      refine run_cons.mpr ⟨{ s with db := db₁, get := g₁ }, ?_, ih g₁ g' db₁ db' hrest⟩
      dsimp only at hnext
      simp only [step, hnext, Option.map_some]
  obtain ⟨as, has⟩ := Getting.leads_handleGet h
  refine ⟨as.length, run_cons.mpr ⟨{ s with get := .lookup use_read_cache key }, ?_, ?_⟩⟩
  · simp only [step, hidle]
  · exact hrun as _ _ _ _ has

end PedroDB
