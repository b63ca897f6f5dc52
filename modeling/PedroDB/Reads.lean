import PedroDB.Cache.Assembly
import PedroDB.Sound

/-!
# What `Get` answers

In a sound state a read of a live record answers with the value that was put. Two
things go wrong at the edges: the direct read does not see a record that ends exactly at
the end of its file, and the read cache answers from the blocks it has, whether or not
the file has changed since.

## Main definitions

* `FileManager.Settled` — a block that no append will change
* `FileManager.CacheOk` — the cached blocks have the bytes of their files

## Main results

* `DBImpl.Sound.readDirectly_eq` — the answer of a direct read
* `DBImpl.Sound.readCached_eq` — the answer through the read cache
* `DBImpl.Sound.handleGet_some` — the answer of `Get` for a live key
-/

namespace PedroDB

variable [Platform] {opt : Options}

namespace FileManager

variable {fm fm' : FileManager} {L : Log} {e : Entry} {id q : ℕ}

/-- Block `q` of file `id` lies in a sealed file, or below the write position. -/
def Settled (fm : FileManager) (id q : ℕ) : Prop :=
  id < fm.activeFileId ∨ id = fm.activeFileId ∧ (q + 1) * 4096 ≤ fm.activeOffset

/-- A cached block has the bytes of its file, and keeps them. -/
def BlockOk (fm : FileManager) (x : ℕ × Bytes) : Prop :=
  ∀ id q, id < 2 ^ 32 → q < 2 ^ 20 → x.1 = ReadCache.blockKey id q →
    x.2 = ReadCache.blockOf (fm.readable id) q ∧ fm.Settled id q

/-- All cached blocks have the bytes of their files. -/
def CacheOk (fm : FileManager) (c : SegmentCache Bytes) : Prop := ∀ x, c.Mem x → fm.BlockOk x

omit [Platform] in
theorem CacheOk.mono {c : SegmentCache Bytes} (h : fm.CacheOk c)
    (hsettled : ∀ id q, fm.Settled id q → fm'.Settled id q ∧
      ReadCache.blockOf (fm'.readable id) q = ReadCache.blockOf (fm.readable id) q) :
    fm'.CacheOk c := by
  intro x hx id q hid hq hkey
  obtain ⟨hblock, hs⟩ := h x hx id q hid hq hkey
  obtain ⟨hs', hsame⟩ := hsettled id q hs
  exact ⟨hblock.trans hsame.symm, hs'⟩

omit [Platform] in
theorem blockOf_congr {f g : ReadableFile}
    (h : ∀ i, q * 4096 ≤ i → i < (q + 1) * 4096 → f.data i = g.data i) :
    ReadCache.blockOf f q = ReadCache.blockOf g q :=
  Padded.read_congr fun i hi => h _ (Nat.le_add_right _ _) (by
    rw [ReadCache.blockSize] at hi
    omega)

/-- Packing a record behind the last one changes no settled block of the file. -/
theorem cacheOk_addRecord {c : SegmentCache Bytes} (h : fm.CacheOk c) (e : Entry) :
    (addRecord fm.activeFileId e fm).CacheOk c := by
  have hgrow : fm.activeOffset ≤ (addRecord fm.activeFileId e fm).activeOffset := by
    simp only [activeOffset, addRecord, Function.update_self]
    exact Nat.le_add_right _ _
  refine h.mono fun id q hs => ⟨hs.imp_right fun hs => ⟨hs.1, hs.2.trans hgrow⟩, ?_⟩
  · refine blockOf_congr fun i _ hi => ?_
    by_cases hid : id = fm.activeFileId
    · subst hid
      have hend : (q + 1) * 4096 ≤ fm.activeOffset :=
        (hs.resolve_left (Nat.lt_irrefl _)).2
      simp only [readable, addRecord, Function.update_self]
      exact Padded.write_of_lt (lt_of_lt_of_le hi hend)
    · simp only [readable, addRecord, Function.update_of_ne hid]

theorem cacheOk_rolled {c : SegmentCache Bytes} (h : fm.CacheOk c) : fm.rolled.CacheOk c := by
  refine h.mono fun id q hs => ⟨Or.inl ?_, ?_⟩
  · have hid : id ≤ fm.activeFileId := hs.elim Nat.le_of_lt fun hs => hs.1.le
    exact Nat.lt_succ_of_le hid
  · have hid : id ≤ fm.activeFileId := hs.elim Nat.le_of_lt fun hs => hs.1.le
    have hne : id ≠ fm.activeFileId + 1 := by omega
    refine blockOf_congr fun i _ _ => ?_
    simp only [readable, FileManager.rolled, Function.update_of_ne hne]

/-- `Append` changes no block that may be cached. -/
theorem CacheOk.appended {c : SegmentCache Bytes} (h : fm.CacheOk c) (e : Entry) :
    (fm.appended e).CacheOk c := by
  unfold FileManager.appended
  split_ifs
  · exact cacheOk_addRecord h e
  · exact cacheOk_addRecord (cacheOk_rolled h) e

theorem CacheOk.removeFile {c : SegmentCache Bytes} (h : fm.CacheOk c) (id : ℕ) :
    (fm.removeFile id).CacheOk c := by
  refine h.mono fun j q hs => ⟨?_, blockOf_congr fun i _ _ => ?_⟩
  · rw [Settled, removeFile_activeFileId, activeOffset, removeFile_data.2,
      removeFile_activeFileId]
    exact hs
  · simp only [readable, removeFile_data.1]

omit [Platform] in
theorem CacheOk.openFiles {c : SegmentCache Bytes} (h : fm.CacheOk c) (o : LRUCache ℕ Unit) :
    ({ fm with openFiles := o } : FileManager).CacheOk c :=
  h

omit [Platform] in
theorem CacheOk.runTask {c : SegmentCache Bytes} {i : ℕ} (h : fm.CacheOk c)
    (hrun : fm.runTask i = some fm') : fm'.CacheOk c := by
  obtain ⟨tasks, indexFiles, rfl⟩ := runTask_eq hrun
  exact h

omit [Platform] in
theorem blockKey_inj {id q id' q' : ℕ} (hq : q < 2 ^ 20) (hq' : q' < 2 ^ 20)
    (h : ReadCache.blockKey id q = ReadCache.blockKey id' q') : id = id' ∧ q = q' := by
  simp only [ReadCache.blockKey] at h
  omega

end FileManager

namespace DBImpl

variable {db : DBImpl} {L : Log} {key : Key} {dir : Dir} {e : Entry} {w : Write}
  {buffer : ReadBuffer}

omit [Platform] in
/-- `Get` of the key reads its record directly, and the record ends exactly at the end of
its file. -/
def hiddenRead (opt : Options) (use_read_cache : Bool) (key : Key) (db : DBImpl) : Bool :=
  match db.find key with
  | none => false
  | some dir =>
    directlyRead opt use_read_cache dir db && decide (dir.loc.offset + dir.entry_size = kMaxFileBytes)

theorem handleGet_none {use_read_cache : Bool} (hfind : db.find key = none) :
    handleGet opt use_read_cache key db buffer = some (⟨.kNotFound, none⟩, db, buffer) := by
  rw [handleGet, hfind]

/-- A read through the cache changes the cache, and the file manager as opening files does. -/
theorem readCached_fileManager {S : FileManager → Prop} {reply : Reply} {db' : DBImpl}
    (hopen : ∀ fm id, S fm → S (fm.acquireDataFile id).2) (hS : S db.fileManager)
    (hget : readCached opt dir db = some (reply, db')) :
    ∃ fm cache, S fm ∧ db' = { db with readCache := cache, fileManager := fm } := by
  have hopener : ∀ fm id, S fm → S (fileOpener fm id).2.2 := by
    intro fm id hfm
    have hacquired := hopen fm id hfm
    unfold fileOpener
    split
    · next heq => rwa [heq] at hacquired
    · next heq => rwa [heq] at hacquired
  obtain ⟨⟨status, entry, cache, fm⟩, hg, heq⟩ := Option.map_eq_some_iff.mp hget
  refine ⟨fm, cache, ReadCache.get_state hopener hS hg, ?_⟩
  dsimp only at heq
  split at heq <;> exact (Prod.mk.inj heq).2.symm

/-- A direct read changes the open files. -/
theorem readDirectly_openFiles (opt : Options) (dir : Dir) (db : DBImpl) (buffer : ReadBuffer) :
    ∃ o, (readDirectly opt dir db buffer).2.1 =
      { db with fileManager := { db.fileManager with openFiles := o } } := by
  obtain ⟨o, ho⟩ := FileManager.acquireDataFile_openFiles db.fileManager dir.loc.id
  refine ⟨o, ?_⟩
  rw [← ho, readDirectly]
  rcases db.fileManager.acquireDataFile dir.loc.id with ⟨status, fm⟩
  cases status with
  | kOk =>
    dsimp only
    split <;> rfl
  | _ => rfl

/-- In any state, a read changes the read cache and the open files at most. -/
theorem handleGet_openFiles {use_read_cache : Bool} {reply : Reply} {db' : DBImpl}
    {rest : ReadBuffer}
    (hget : handleGet opt use_read_cache key db buffer = some (reply, db', rest)) :
    ∃ o cache, db' = { db with
      readCache := cache
      fileManager := { db.fileManager with openFiles := o } } := by
  unfold handleGet at hget
  split at hget
  · cases hget
    exact ⟨_, _, rfl⟩
  · next dir _ =>
    split_ifs at hget
    · obtain ⟨o, ho⟩ := readDirectly_openFiles opt dir db buffer
      rw [Option.some_inj.mp hget] at ho
      exact ⟨o, _, ho⟩
    · obtain ⟨⟨reply', db₁⟩, hc, heq⟩ := Option.map_eq_some_iff.mp hget
      cases heq
      obtain ⟨fm, cache, ⟨o, rfl⟩, rfl⟩ := readCached_fileManager
        (S := fun fm => ∃ o, fm = { db.fileManager with openFiles := o })
        (by
          rintro fm id ⟨o, rfl⟩
          exact FileManager.acquireDataFile_openFiles _ id)
        ⟨_, rfl⟩ hc
      exact ⟨o, cache, rfl⟩

namespace Sound

/-- A direct read sees the record, unless it ends exactly at the end of the file. -/
theorem readDirectly_eq (opt : Options) (h : db.Sound L) (hfind : db.find key = some dir)
    (hloc : Located L dir.loc e) (buffer : ReadBuffer) :
    ∃ o rest, readDirectly opt dir db buffer =
        (if dir.loc.offset + e.size < kMaxFileBytes then replyOf opt e
          else ⟨.kCorruption, none⟩,
          { db with fileManager := { db.fileManager with openFiles := o } }, rest) ∧
      ({ db with fileManager := { db.fileManager with openFiles := o } } : DBImpl).Sound L := by
  obtain ⟨o, hopen, hreg⟩ := h.registered.acquireDataFile_eq dir.loc.id
  rw [if_pos (h.kept key dir hfind)] at hopen
  have hfile := h.holds.files dir.loc.id
  have hready := RecordIterator.ready_seek dir.loc.offset
  rcases Nat.lt_or_ge (dir.loc.offset + e.size) kMaxFileBytes with hlt | hge
  · obtain ⟨rest, hvalid, -⟩ := hfile.valid_of_record hready hloc hlt
    refine ⟨o, rest, ?_, h.acquireDataFile hreg⟩
    simp only [readDirectly, hopen, hvalid, if_pos hlt, RecordIterator.next]
  · have hend : dir.loc.offset + e.size = kMaxFileBytes :=
      Nat.le_antisymm (hloc.end_le.trans hfile.fits) hge
    have hfalse := hfile.valid_of_fills hready hloc hend
    obtain ⟨it, rest, hvalid⟩ : ∃ it rest, ((RecordIterator.create kMaxFileBytes).seek
        dir.loc.offset).1.valid (db.fileManager.dataFiles dir.loc.id).data ReadBuffer.empty =
          (false, it, rest) := ⟨_, _, Prod.ext hfalse rfl⟩
    refine ⟨o, rest, ?_, h.acquireDataFile hreg⟩
    simp only [readDirectly, hopen, hvalid, if_neg (Nat.not_lt.mpr hge)]

/-- A read through the cache sees the record, if the blocks it touches are settled. -/
theorem readCached_eq (opt : Options) (h : db.Sound L) (hcache : db.fileManager.CacheOk db.readCache)
    (hfind : db.find key = some dir) (hloc : Located L dir.loc e) (hsize : dir.entry_size = e.size)
    (hsettled : ∀ q, ReadCache.Touches dir.loc.offset e.size q →
      db.fileManager.Settled dir.loc.id q) :
    ∃ o cache, readCached opt dir db =
        some (replyOf opt e, { db with
          readCache := cache
          fileManager := { db.fileManager with openFiles := o } }) ∧
      db.fileManager.CacheOk cache ∧
      ({ db with
          readCache := cache
          fileManager := { db.fileManager with openFiles := o } } : DBImpl).Sound L := by
  let fm := db.fileManager
  let S : FileManager → Prop := fun s => s.Registered ∧ ∃ o, s = { fm with openFiles := o }
  have hid : dir.loc.id < 2 ^ 32 := (h.id_le_active hfind).trans_lt h.registered.bound
  -- The opener returns the file, whatever its cache of open files holds.
  have hopens : ReadCache.Opens fileOpener S dir.loc.id (fm.readable dir.loc.id) := by
    rintro s ⟨hreg, o, rfl⟩
    obtain ⟨o', hopen, hreg'⟩ := hreg.acquireDataFile_eq dir.loc.id
    have hmem : dir.loc.id ∈ ({ fm with openFiles := o } : FileManager).metadata.files :=
      h.kept key dir hfind
    rw [if_pos hmem] at hopen
    exact ⟨_, by simp only [fileOpener, hopen]; rfl, hreg', o', rfl⟩
  have hend : dir.loc.offset + e.size ≤ kMaxFileBytes :=
    hloc.end_le.trans (h.holds.files dir.loc.id).fits
  have hq : ∀ q, ReadCache.Touches dir.loc.offset e.size q → q < 2 ^ 20 := by
    intro q hq
    have := hq.2
    rw [kMaxFileBytes] at hend
    omega
  -- The file consists of whole blocks.
  have haligned : 4096 ∣ (fm.readable dir.loc.id).size := ⟨32768, rfl⟩
  have hbound : (fm.readable dir.loc.id).size < 2 ^ 31 := by
    change kMaxFileBytes < _
    rw [kMaxFileBytes]
    omega
  -- A cached block of the record is the one of the file.
  have hblock : ∀ q, ReadCache.Touches dir.loc.offset e.size q → ∀ b,
      fm.BlockOk (ReadCache.blockKey dir.loc.id q, b) →
        b = ReadCache.blockOf (fm.readable dir.loc.id) q :=
    fun q hq' b hb => (hb dir.loc.id q hid (hq q hq') rfl).1
  -- And what is read now may be cached, since the block is settled.
  have hsupplied : ∀ q, ReadCache.Touches dir.loc.offset e.size q →
      fm.BlockOk (ReadCache.blockKey dir.loc.id q,
        ReadCache.blockOf (fm.readable dir.loc.id) q) := by
    intro q hq'
    generalize hb : ReadCache.blockOf (fm.readable dir.loc.id) q = b
    intro id' q' _ hq2 hkey
    obtain ⟨hid', hq''⟩ := FileManager.blockKey_inj (hq q hq') hq2 hkey
    rw [← hid', ← hq'']
    exact ⟨hb.symm, hsettled q hq'⟩
  obtain ⟨status, entry, rest, cache, s, hget, hunpack, hstatus, hcache', hreg', o, rfl⟩ :=
    ReadCache.get_eq hid hopens (fun _ => rfl) haligned hend hbound hblock hsupplied hcache
      (show S fm from ⟨h.registered, fm.openFiles, rfl⟩)
  have hread : Padded.read (fm.readable dir.loc.id).data dir.loc.offset e.size = e.pack :=
    (h.holds.files dir.loc.id).read_eq hloc
  -- The bytes that were assembled are those of the record.
  have hpeek : (ReadBuffer.ofBytes e.pack).peek e.size = e.pack := by
    rw [← e.length_pack]
    exact ReadBuffer.peek_ofBytes _
  have hcap : (ReadBuffer.ofBytes e.pack).readIndex + e.size ≤
      (ReadBuffer.ofBytes e.pack).capacity := by
    simp [ReadBuffer.ofBytes, e.length_pack]
  rw [hread, (h.storable hloc).unPack_eq (ReadBuffer.ofBytes_inBounds _) hcap hpeek] at hunpack
  obtain ⟨rfl, -⟩ := Prod.mk.inj hunpack
  rw [Option.isSome_some, if_pos rfl] at hstatus
  subst hstatus
  rw [← hsize] at hget
  refine ⟨o, cache, ?_, hcache', ?_⟩
  · simp only [readCached, fm] at hget ⊢
    rw [hget]
    rfl
  · exact (h.acquireDataFile hreg').reindex rfl rfl h.max fun key dir hdir => Or.inl hdir

/-- `Get` of a live key answers from its record, unless it is a direct read of a record that
ends exactly at the end of its file. -/
theorem handleGet_some (opt : Options) (use_read_cache : Bool) (buffer : ReadBuffer)
    (h : db.Sound L)
    (hcache : db.fileManager.CacheOk db.readCache) (hfind : db.find key = some dir)
    (hloc : Located L dir.loc e) (hsize : dir.entry_size = e.size)
    (hsettled : directlyRead opt use_read_cache dir db = false → ∀ q,
      ReadCache.Touches dir.loc.offset dir.entry_size q → db.fileManager.Settled dir.loc.id q) :
    ∃ db' rest, handleGet opt use_read_cache key db buffer =
        some (if hiddenRead opt use_read_cache key db then ⟨.kCorruption, none⟩
          else replyOf opt e, db', rest) ∧
      db'.fileManager.CacheOk db'.readCache := by
  have hend : dir.loc.offset + e.size ≤ kMaxFileBytes :=
    hloc.end_le.trans (h.holds.files dir.loc.id).fits
  cases hdirect : directlyRead opt use_read_cache dir db with
  | true =>
    obtain ⟨o, rest, heq, -⟩ := h.readDirectly_eq opt hfind hloc buffer
    refine ⟨{ db with fileManager := { db.fileManager with openFiles := o } }, rest, ?_,
      hcache.openFiles o⟩
    simp only [handleGet, hiddenRead, hfind, hdirect, if_true, heq, hsize, Bool.true_and,
      decide_eq_true_eq]
    -- `Valid()` needs the record to end before the file does.
    rcases Nat.lt_or_ge (dir.loc.offset + e.size) kMaxFileBytes with hlt | hge
    · rw [if_pos hlt, if_neg hlt.ne]
    · rw [if_neg hge.not_gt, if_pos (Nat.le_antisymm hend hge)]
  | false =>
    obtain ⟨o, cache, heq, hcache', -⟩ :=
      h.readCached_eq opt hcache hfind hloc hsize (hsize ▸ hsettled hdirect)
    refine ⟨{ db with
      readCache := cache
      fileManager := { db.fileManager with openFiles := o } }, buffer, ?_,
      FileManager.CacheOk.openFiles hcache' o⟩
    simp only [handleGet, hiddenRead, hfind, hdirect, heq, Bool.false_and, Bool.false_eq_true,
      if_false, Option.map_some]

/-- Whatever the cache holds, a read through it touches only the cache and the open
files. -/
theorem readCached_state {reply : Reply} {db' : DBImpl} (h : db.Sound L)
    (hget : readCached opt dir db = some (reply, db')) :
    ∃ o cache, db' = { db with
        readCache := cache
        fileManager := { db.fileManager with openFiles := o } } ∧ db'.Sound L := by
  -- The state of the opener is the file manager with another cache of open files.
  obtain ⟨fm, cache, ⟨hreg, o, rfl⟩, rfl⟩ := readCached_fileManager
    (S := fun fm => fm.Registered ∧ ∃ o, fm = { db.fileManager with openFiles := o })
    (by
      rintro fm id ⟨hreg, o, rfl⟩
      obtain ⟨o', ho', hreg'⟩ := hreg.acquireDataFile_eq id
      rw [ho']
      exact ⟨hreg', o', rfl⟩)
    ⟨h.registered, _, rfl⟩ hget
  exact ⟨o, cache, rfl, (h.acquireDataFile hreg).reindex rfl rfl h.max fun _ _ hdir => Or.inl hdir⟩

/-- Whatever it answers, `Get` touches only the read cache and the open files. -/
theorem handleGet_state {use_read_cache : Bool} {reply : Reply} {db' : DBImpl}
    {rest : ReadBuffer} (h : db.Sound L)
    (hget : handleGet opt use_read_cache key db buffer = some (reply, db', rest)) :
    ∃ o cache, db' = { db with
        readCache := cache
        fileManager := { db.fileManager with openFiles := o } } ∧ db'.Sound L := by
  unfold handleGet at hget
  split at hget
  · obtain ⟨-, rfl, -⟩ : _ = reply ∧ db = db' ∧ _ = rest := by simpa using hget
    exact ⟨db.fileManager.openFiles, db.readCache, rfl, h⟩
  · next dir hfind =>
    split_ifs at hget
    · obtain ⟨e, hloc, -⟩ := h.pointed key dir hfind
      obtain ⟨o, rest', heq, hsound⟩ := h.readDirectly_eq opt hfind hloc buffer
      rw [heq] at hget
      obtain ⟨-, rfl, -⟩ := by simpa using hget
      exact ⟨o, db.readCache, rfl, hsound⟩
    · obtain ⟨⟨reply', db''⟩, hc, heq⟩ := Option.map_eq_some_iff.mp hget
      obtain ⟨o, cache, rfl, hsound⟩ := h.readCached_state hc
      obtain ⟨-, rfl, -⟩ := by simpa using heq
      exact ⟨o, cache, rfl, hsound⟩

end Sound

end DBImpl
end PedroDB
