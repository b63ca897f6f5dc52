import PedroDB.Format.Torn
import PedroDB.Process
import PedroDB.Reference
import PedroDB.Theorems.ConcurrentCompaction

/-!
# A `Get` during compactions

`Get` has the location of a record that stays where it is, and the bytes that it reads from the
file are those of the record. What can go wrong is that a run of `Compact(id)` removes the file
before `Get` has opened it, or that a block which the read cache holds is older than the record.

## Main definitions

* `DBImpl.HasRecord` — the index leads to an intact record of the key
* `Getting.Clear` — what must hold when `Get` takes a section
* `Getting.Ok` — what is known about `Get`, wherever it stands
* `Getting.rank` — how many sections are left

## Main results

* `Getting.Ok.next` — one section of `Get`
* `Process.get_of_run` — what `Get` returns
* `Process.exists_get_failed` — the file is removed while `Get` has its location
-/

namespace PedroDB

open Framing Transition

section

variable [Platform] {opt : Options} {fm fm' : FileManager} {db : DBImpl} {L L' : Log}
  {key : Key} {value : Bytes} {reply : Reply} {e : Entry} {loc : Location} {dir : Dir}
  {ctx : ReadCache.Context} {file : Option ℕ} {i id q : ℕ} {o : Opening}

/-- The record that the index leads to, if its file can be opened. -/
def DBImpl.record (key : Key) (db : DBImpl) : Option Entry :=
  (db.find key).bind fun dir => db.fileManager.read dir.loc

/-- The index leads to an intact record of the key with this stored value. -/
def DBImpl.HasRecord (key : Key) (value : Bytes) (db : DBImpl) : Prop :=
  ∃ e ∈ db.record key, e.key = key ∧ e.value = value ∧ e.validate = true

instance (key : Key) (value : Bytes) (db : DBImpl) : Decidable (db.HasRecord key value) :=
  inferInstanceAs (Decidable (∃ e ∈ db.record key, _))

/-- A key with a record has a location that `Get` can answer from. -/
theorem DBImpl.HasRecord.exists_located (h : db.HasRecord key (DBImpl.stored opt value))
    (hholds : db.fileManager.Holds L) (hpointed : db.Pointed L) :
    ∃ dir e, db.find key = some dir ∧ Located L dir.loc e ∧ dir.entry_size = e.size ∧
      DBImpl.replyOf opt e = ⟨.kOk, some value⟩ := by
  obtain ⟨e, he, hkey, hvalue, hvalid⟩ := h
  obtain ⟨dir, hfind, hread⟩ := Option.bind_eq_some_iff.mp he
  obtain ⟨x, hloc, -, hsize⟩ := hpointed key dir hfind
  have hx : x = e := by
    unfold FileManager.read at hread
    split_ifs at hread
    rw [(hholds.files dir.loc.id).unPack_eq hloc] at hread
    exact Option.some_inj.mp hread
  subst hx
  refine ⟨dir, x, hfind, hloc, hsize, ?_⟩
  rw [DBImpl.replyOf, if_pos hvalid, hvalue, DBImpl.userValue_stored]

/-! ### Opening a file -/

namespace Opening

/-- `AcquireDataFile` has not failed. -/
def Sound : Opening → Prop
  | .failed _ => False
  | _ => True

/-- How many sections of `AcquireDataFile` are left. -/
def rank : Opening → ℕ
  | .lookup => 3
  | .openPath => 2
  | .put => 1
  | .opened | .failed _ => 0

omit [Platform] in
/-- One section of `AcquireDataFile`, if the file is there when its path is opened. -/
theorem Sound.next (id : ℕ) (fm : FileManager) (h : o.Sound) (hne : o ≠ .opened)
    (hclear : o = .openPath → (fm.dataFiles id).linked = true) :
    ∃ o' openFiles, o.next id fm = some (o', { fm with openFiles }) ∧ o'.Sound ∧
      o'.rank < o.rank := by
  cases o with
  | lookup =>
    by_cases hactive : id = fm.activeFileId
    · exact ⟨.opened, fm.openFiles, if_pos hactive, trivial, by decide⟩
    · rcases hget : fm.openFiles.get id with ⟨_ | u, openFiles⟩
      · refine ⟨.openPath, openFiles, ?_, trivial, by decide⟩
        simp only [Opening.next, if_neg hactive, hget]
      · refine ⟨.opened, openFiles, ?_, trivial, by decide⟩
        simp only [Opening.next, if_neg hactive, hget]
  | openPath => exact ⟨.put, fm.openFiles, if_pos (hclear rfl), trivial, by decide⟩
  | put => exact ⟨.opened, fm.openFiles.put id (), rfl, trivial, by decide⟩
  | opened => exact absurd rfl hne
  | failed status => exact h.elim

omit [Platform] in
/-- Even if the file is not there, it goes on. -/
theorem Sound.isSome_next (h : o.Sound) (hne : o ≠ .opened) : (o.next id fm).isSome := by
  cases o with
  | lookup =>
    simp only [Opening.next]
    split_ifs
    · rfl
    · split
      · rfl
      · rfl
  | openPath =>
    simp only [Opening.next]
    split_ifs
    · rfl
    · rfl
  | put => rfl
  | opened => exact absurd rfl hne
  | failed status => exact h.elim

end Opening

/-! ### Cached blocks -/

namespace ReadCache.Context

/-- What the block has of the record is what the file has. -/
def Current (ctx : Context) (i : ℕ) (block : Bytes) (file : ReadableFile) : Prop :=
  let begin_ := max (blockOffset i) ctx.begin_
  let end_ := min (blockOffset (i + 1)) ctx.end_
  (block.drop (begin_ - blockOffset i)).take (sub32 end_ begin_) =
    Padded.read file.data begin_ (sub32 end_ begin_)

instance (ctx : Context) (i : ℕ) (block : Bytes) (file : ReadableFile) :
    Decidable (ctx.Current i block file) :=
  inferInstanceAs (Decidable (_ = _))

omit [Platform] in
/-- Then it is as good as the block of the file. -/
theorem Current.addBlock_eq {block : Bytes} {file : ReadableFile} {o n : ℕ}
    (h : ctx.Current i block file) (hi : IsBlock i id q) (hfor : ctx.For file o n)
    (hq : Touches o n q) : ctx.addBlock i block = ctx.addBlock i (blockOf file q) := by
  obtain ⟨hq1, hq2⟩ := hq
  have hslice : ((blockOf file q).drop (max (q * 4096) o - q * 4096)).take
      (sub32 (min ((q + 1) * 4096) (o + n)) (max (q * 4096) o)) =
        Padded.read file.data (max (q * 4096) o)
          (sub32 (min ((q + 1) * 4096) (o + n)) (max (q * 4096) o)) := by
    rw [sub32_of_le (by omega)]
    exact slice_blockOf (by omega) (by omega) (by omega)
  simp only [Current, hi.offset, hi.next, hfor.begin_, hfor.end_] at h
  simp only [addBlock, hi.offset, hi.next, hfor.begin_, hfor.end_, h, hslice]

end ReadCache.Context

/-! ### Where `Get` stands -/

namespace Getting

variable (opt) in
/-- What must hold when `Get` takes its next section: the record does not end with its file if it
is read directly, the file is there when its path is opened, and a cached block is up to date. -/
def Clear (db : DBImpl) : Getting → Prop
  | .lookup use_read_cache key => DBImpl.hiddenRead opt use_read_cache key db = false
  | .direct dir .openPath => (db.fileManager.dataFiles dir.loc.id).linked = true
  | .block ctx i _ =>
    ReadCache.blockOffset i < ctx.end_ → ∀ block ∈ (db.readCache.get i).1,
      ctx.Current i block (db.fileManager.readable (ReadCache.blockFile i))
  | .fill _ i _ .openPath => (db.fileManager.dataFiles (ReadCache.blockFile i)).linked = true
  | _ => True

instance (db : DBImpl) : (g : Getting) → Decidable (g.Clear opt db)
  | .lookup use_read_cache key =>
    inferInstanceAs (Decidable (DBImpl.hiddenRead opt use_read_cache key db = false))
  | .direct dir .openPath =>
    inferInstanceAs (Decidable ((db.fileManager.dataFiles dir.loc.id).linked = true))
  | .block ctx i _ =>
    inferInstanceAs (Decidable (ReadCache.blockOffset i < ctx.end_ →
      ∀ block ∈ (db.readCache.get i).1,
        ctx.Current i block (db.fileManager.readable (ReadCache.blockFile i))))
  | .fill _ i _ .openPath =>
    inferInstanceAs (Decidable ((db.fileManager.dataFiles (ReadCache.blockFile i)).linked = true))
  | .idle | .returned _ | .direct _ .lookup | .direct _ .put | .direct _ .opened
  | .direct _ (.failed _) | .fill _ _ _ .lookup | .fill _ _ _ .put | .fill _ _ _ .opened
  | .fill _ _ _ (.failed _) => .isTrue trivial

variable (opt) in
/-- `Get` stands in front of block `q` of its record, which holds the answer, with the bytes of
the record up to there. -/
structure Assembles (fm : FileManager) (L : Log) (reply : Reply) (ctx : ReadCache.Context) (i : ℕ)
    (file : Option ℕ) (loc : Location) (e : Entry) (q : ℕ) : Prop where
  located : Located L loc e
  reply_eq : DBImpl.replyOf opt e = reply
  index : i = ReadCache.blockKey loc.id q
  first : loc.offset / 4096 ≤ q
  last : q ≤ (loc.offset + e.size) / 4096 + 1
  begin_ : ctx.begin_ = loc.offset
  end_ : ctx.end_ = loc.offset + e.size
  closed : ctx.file = none
  holds : ctx.Holds (fm.readable loc.id) loc.offset e.size q
  file : file = none ∨ file = some loc.id

variable (opt) in
/-- What is known about `Get`, wherever it stands. -/
def Ok (fm : FileManager) (L : Log) (key : Key) (reply : Reply) : Getting → Prop
  | .idle => False
  | .lookup _ k => k = key
  | .direct dir o =>
    ∃ e, Located L dir.loc e ∧ DBImpl.replyOf opt e = reply ∧
      dir.loc.offset + e.size < kMaxFileBytes ∧ o.Sound
  | .block ctx i file => ∃ loc e q, Assembles opt fm L reply ctx i file loc e q
  | .fill ctx i file o =>
    ∃ loc e q, Assembles opt fm L reply ctx i file loc e q ∧
      ReadCache.Touches loc.offset e.size q ∧ o.Sound
  | .returned r => r = reply

/-- How many sections of `Get` are left, at most. -/
def rank : Getting → ℕ
  | .idle | .returned _ => 0
  | .direct _ o => o.rank + 1
  | .fill _ i _ o => 5 * (2 ^ 20 - (i + 1) % 2 ^ 20) + 2 + o.rank
  | .block _ i _ => 5 * (2 ^ 20 - i % 2 ^ 20) + 1
  | .lookup _ _ => 5 * 2 ^ 20 + 2

namespace Assembles

variable {L : Log} (h : Assembles opt fm L reply ctx i file loc e q)

include h

/-- The rest of the process goes on: the record stays where it is. -/
theorem advances (hholds : fm.Holds L) (ha : fm.Advances L fm' L') :
    Assembles opt fm' L' reply ctx i file loc e q where
  located := ha.grows.located loc e h.located
  reply_eq := h.reply_eq
  index := h.index
  first := h.first
  last := h.last
  begin_ := h.begin_
  end_ := h.end_
  closed := h.closed
  holds := by
    have hbefore := (hholds.files loc.id).read_eq h.located
    have hafter := (ha.holds.files loc.id).read_eq (ha.grows.located loc e h.located)
    exact h.holds.congr (hafter.trans hbefore.symm)
  file := h.file

theorem for_ : ctx.For (fm.readable loc.id) loc.offset e.size :=
  ⟨h.begin_, h.end_, Or.inl h.closed⟩

theorem end_le (hholds : fm.Holds L) : loc.offset + e.size ≤ kMaxFileBytes :=
  h.located.end_le.trans (hholds.files loc.id).fits

theorem lt_blocks (hholds : fm.Holds L) : q + 1 < 2 ^ 20 := by
  have hlast := h.last
  have hend := h.end_le hholds
  rw [kMaxFileBytes] at hend
  omega

theorem isBlock (hholds : fm.Holds L) (hbound : fm.activeFileId < 2 ^ 32) :
    ReadCache.IsBlock i loc.id q := by
  rw [h.index]
  exact ReadCache.isBlock_blockKey ((hholds.id_le_active h.located).trans_lt hbound)
    (h.lt_blocks hholds)

/-- The block in front of which `Get` stands is added. -/
theorem addBlock (hholds : fm.Holds L) (hbound : fm.activeFileId < 2 ^ 32)
    (hq : ReadCache.Touches loc.offset e.size q) {file' : Option ℕ}
    (hfile : file' = none ∨ file' = some loc.id) :
    Assembles opt fm L reply
      (ctx.addBlock i (ReadCache.blockOf (fm.readable loc.id) q)) (i + 1) file' loc e (q + 1) := by
  have hfor := h.for_.addBlock i (ReadCache.blockOf (fm.readable loc.id) q)
  have hadded := ReadCache.Context.addBlock_holds (h.isBlock hholds hbound) h.for_.begin_
    h.for_.end_ h.holds hq
  refine ⟨h.located, h.reply_eq, ?_, h.first.trans (Nat.le_succ _), ?_, hfor.begin_, hfor.end_,
    ?_, hadded, hfile⟩
  · rw [h.index, ReadCache.blockKey_succ]
  · have := hq.2
    omega
  · simp only [ReadCache.Context.addBlock]
    split_ifs
    · exact h.closed
    · exact h.closed

/-- Behind the last block, the context is built to the record. -/
theorem buildReply_eq (hholds : fm.Holds L) (hend : loc.offset + e.size ≤ q * 4096) :
    buildReply opt ctx = reply := by
  have hbytes := h.holds.bytes_eq hend
  have hread := (hholds.files loc.id).read_eq h.located
  have hs := (hholds.files loc.id).storable e h.located.mem
  rcases hunpack : Entry.unPack (ReadBuffer.ofBytes e.pack) with ⟨x, rest⟩
  have hx := hs.unPack_ofBytes []
  rw [List.append_nil, hunpack] at hx
  dsimp only at hx
  subst hx
  simp only [buildReply, ReadCache.Context.build, hbytes, FileManager.readable, hread, hunpack]
  exact h.reply_eq

end Assembles

/-- `Get` stands where it stood while the rest of the process goes on. -/
theorem Ok.advances {g : Getting} (h : g.Ok opt fm L key reply) (hholds : fm.Holds L)
    (ha : fm.Advances L fm' L') : g.Ok opt fm' L' key reply := by
  cases g with
  | idle => exact h
  | lookup use_read_cache k => exact h
  | direct dir o =>
    obtain ⟨e, hloc, hreply, hend, hsound⟩ := h
    exact ⟨e, ha.grows.located _ _ hloc, hreply, hend, hsound⟩
  | block ctx i file =>
    obtain ⟨loc, e, q, has⟩ := h
    exact ⟨loc, e, q, has.advances hholds ha⟩
  | fill ctx i file o =>
    obtain ⟨loc, e, q, has, hq, hsound⟩ := h
    exact ⟨loc, e, q, has.advances hholds ha, hq, hsound⟩
  | returned r => exact h

/-! ### One section -/

theorem next_direct (hsound : o.Sound) (hne : o ≠ .opened) :
    (direct dir o).next opt db =
      (o.next dir.loc.id db.fileManager).map fun (o, fileManager) =>
        (.direct dir o, { db with fileManager }) := by
  cases o with
  | opened => exact absurd rfl hne
  | failed status => exact hsound.elim
  | _ => rfl

theorem next_fill (hsound : o.Sound) (hne : o ≠ .opened) :
    (fill ctx i file o).next opt db =
      (o.next (ReadCache.blockFile i) db.fileManager).map fun (o, fileManager) =>
        (.fill ctx i file o, { db with fileManager }) := by
  cases o with
  | opened => exact absurd rfl hne
  | failed status => exact hsound.elim
  | _ => rfl

/-- `Get` does not stop on its own before it has returned. -/
theorem Ok.isSome_next {g : Getting} (db : DBImpl) (hok : g.Ok opt fm L key reply) :
    g = .returned reply ∨ (g.next opt db).isSome ∧ 0 < g.rank := by
  cases g with
  | idle => exact hok.elim
  | lookup use_read_cache k =>
    refine Or.inr ⟨?_, by simp only [rank]; omega⟩
    -- The lookup finds the key or not.
    simp only [Getting.next]
    split
    · rfl
    · split_ifs
      · rfl
      · rfl
  | direct dir o =>
    obtain ⟨-, -, -, -, hsound⟩ := hok
    refine Or.inr ⟨?_, Nat.succ_pos _⟩
    -- The handle is there, and the record is read.
    by_cases hopened : o = .opened
    · rw [hopened]
      rfl
    · rw [next_direct hsound hopened, Option.isSome_map]
      exact hsound.isSome_next hopened
  | block ctx i file =>
    refine Or.inr ⟨?_, Nat.succ_pos _⟩
    by_cases hdone : ctx.end_ ≤ ReadCache.blockOffset i
    · -- The loop ends, or asks its segment.
      simp only [Getting.next, if_pos hdone, Option.isSome_some]
    · simp only [Getting.next, if_neg hdone]
      split
      · rfl
      · rfl
  | fill ctx i file o =>
    obtain ⟨-, -, -, -, -, hsound⟩ := hok
    refine Or.inr ⟨?_, by simp only [rank]; omega⟩
    by_cases hopened : o = .opened
    · rw [hopened]
      rfl
    · rw [next_fill hsound hopened, Option.isSome_map]
      exact hsound.isSome_next hopened
  | returned r => exact Or.inl (congrArg returned hok)

/-- `Get` goes on, and only the caches change. -/
def Goes (opt : Options) (db : DBImpl) (L : Log) (key : Key) (reply : Reply) (g : Getting) :
    Prop :=
  ∃ g' readCache openFiles,
    g.next opt db = some (g',
      { db with readCache, fileManager := { db.fileManager with openFiles } }) ∧
    g'.Ok opt db.fileManager L key reply ∧ g'.rank < g.rank

variable (hholds : db.fileManager.Holds L) (hbound : db.fileManager.activeFileId < 2 ^ 32)

include hholds

/-- The section under `mu_`. -/
theorem goes_lookup {use_read_cache : Bool} (hpointed : db.Pointed L)
    (hrecord : db.HasRecord key (DBImpl.stored opt value))
    (hclear : (lookup use_read_cache key).Clear opt db) :
    Goes opt db L key ⟨.kOk, some value⟩ (.lookup use_read_cache key) := by
  obtain ⟨dir, e, hfind, hloc, hsize, hreply⟩ := hrecord.exists_located hholds hpointed
  have hend : dir.loc.offset + e.size ≤ kMaxFileBytes :=
    hloc.end_le.trans (hholds.files dir.loc.id).fits
  have hmax : kMaxFileBytes < 2 ^ 31 := by
    rw [kMaxFileBytes]
    omega
  -- A direct read: the record does not end with the file, by the guard.
  by_cases hdirect : DBImpl.directlyRead opt use_read_cache dir db = true
  · refine ⟨.direct dir .lookup, db.readCache, db.fileManager.openFiles, ?_, ?_, ?_⟩
    · simp only [next, hfind, hdirect, if_true]
    · have hne : dir.loc.offset + e.size ≠ kMaxFileBytes := by
        simpa [Clear, DBImpl.hiddenRead, hfind, hdirect, hsize] using hclear
      exact ⟨e, hloc, hreply, lt_of_le_of_ne hend hne, trivial⟩
    · simp only [rank, Opening.rank]
      omega
  · -- A read through the cache starts with the first block of the record.
    refine ⟨.block (ReadCache.Context.create dir.loc dir.entry_size)
      (ReadCache.blockIdx dir.loc.id dir.loc.offset) none, db.readCache,
      db.fileManager.openFiles, ?_, ⟨dir.loc, e, dir.loc.offset / 4096, ?_⟩, ?_⟩
    · simp only [next, hfind, if_neg hdirect]
    · refine ⟨hloc, hreply, ReadCache.blockIdx_eq _ _, le_rfl, ?_, rfl, ?_, rfl,
        Or.inl ⟨rfl, ?_⟩, Or.inl rfl⟩
      · omega
      · rw [hsize]
        exact u32_of_lt (by omega)
      · have hnone : min (max (dir.loc.offset / 4096 * 4096) dir.loc.offset)
            (dir.loc.offset + e.size) - dir.loc.offset = 0 := by omega
        rw [hnone, Padded.read_zero]
        rfl
    · simp only [rank]
      omega

/-- A section of a direct read. -/
theorem goes_direct (hok : (direct dir o).Ok opt db.fileManager L key reply)
    (hclear : (direct dir o).Clear opt db) : Goes opt db L key reply (.direct dir o) := by
  obtain ⟨e, hloc, hreply, hend, hsound⟩ := hok
  by_cases hopened : o = .opened
  · subst hopened
    refine ⟨.returned (readRecord opt dir db.fileManager), db.readCache,
      db.fileManager.openFiles, rfl, ?_, Nat.succ_pos _⟩
    have hready := RecordIterator.ready_seek dir.loc.offset
    obtain ⟨rest, hvalid, -⟩ :=
      (hholds.files dir.loc.id).valid_of_record hready hloc hend
    simp only [Ok, readRecord, hvalid, RecordIterator.next]
    exact hreply
  · obtain ⟨o', openFiles, hnext, hsound', hrank⟩ := hsound.next dir.loc.id db.fileManager
      hopened fun ho => by rw [ho] at hclear; exact hclear
    refine ⟨.direct dir o', db.readCache, openFiles, ?_, ⟨e, hloc, hreply, hend, hsound'⟩,
      Nat.succ_lt_succ hrank⟩
    rw [next_direct hsound hopened, hnext]
    rfl

include hbound

/-- The end of a read through the cache, or a block that is looked for. -/
theorem goes_block (hok : (block ctx i file).Ok opt db.fileManager L key reply)
    (hclear : (block ctx i file).Clear opt db) :
    Goes opt db L key reply (.block ctx i file) := by
  obtain ⟨loc, e, q, has⟩ := hok
  have hi := has.isBlock hholds hbound
  have hq := has.lt_blocks hholds
  -- Blocks are counted within the file, and do not carry into its id.
  have hmod : i % 2 ^ 20 = q := by
    rw [has.index, ReadCache.blockKey]
    omega
  have hmod' : (i + 1) % 2 ^ 20 = q + 1 := by
    rw [has.index, ReadCache.blockKey]
    omega
  by_cases hdone : ctx.end_ ≤ ReadCache.blockOffset i
  · -- All blocks are there.
    refine ⟨.returned (buildReply opt ctx), db.readCache, db.fileManager.openFiles, if_pos hdone,
      ?_, ?_⟩
    · rw [hi.offset, has.end_] at hdone
      exact has.buildReply_eq hholds hdone
    · simp only [rank]
      omega
  · have htouches : ReadCache.Touches loc.offset e.size q := by
      refine ⟨has.first, ?_⟩
      rw [← has.end_, ← hi.offset]
      exact not_le.mp hdone
    rcases hget : db.readCache.get i with ⟨_ | block, readCache⟩
    · -- A miss leads to the supplier.
      refine ⟨.fill ctx i file (if file.isSome then .opened else .lookup), readCache,
        db.fileManager.openFiles, ?_, ⟨loc, e, q, has, htouches, ?_⟩, ?_⟩
      · simp only [next, if_neg hdone, hget]
      · split_ifs
        · trivial
        · trivial
      · simp only [rank, hmod, hmod']
        split_ifs
        · simp only [Opening.rank]
          omega
        · simp only [Opening.rank]
          omega
    · -- A hit is a whole and current block, by the guard.
      refine ⟨.block (ctx.addBlock i block) (i + 1) file, readCache, db.fileManager.openFiles,
        ?_, ⟨loc, e, q + 1, ?_⟩, ?_⟩
      · simp only [next, if_neg hdone, hget]
      · have hcurrent : ctx.Current i block (db.fileManager.readable loc.id) := by
          rw [← hi.file]
          exact hclear (not_le.mp hdone) block (by rw [hget]; rfl)
        rw [hcurrent.addBlock_eq hi has.for_ htouches]
        exact has.addBlock hholds hbound htouches has.file
      · simp only [rank, hmod, hmod']
        omega

/-- A section of `AcquireDataFile`, or a block that is read. -/
theorem goes_fill (hok : (fill ctx i file o).Ok opt db.fileManager L key reply)
    (hclear : (fill ctx i file o).Clear opt db) :
    Goes opt db L key reply (.fill ctx i file o) := by
  obtain ⟨loc, e, q, has, htouches, hsound⟩ := hok
  have hi := has.isBlock hholds hbound
  have hq := has.lt_blocks hholds
  have hmod' : (i + 1) % 2 ^ 20 = q + 1 := by
    rw [has.index, ReadCache.blockKey]
    omega
  by_cases hopened : o = .opened
  · -- The supplier has a handle, of the file that the block is in.
    subst hopened
    have hid : file.getD (ReadCache.blockFile i) = loc.id := by
      rw [hi.file]
      rcases has.file with hfile | hfile
      · rw [hfile, Option.getD_none]
      · rw [hfile, Option.getD_some]
    -- The block is inside the file, which has its full size.
    have hread : (db.fileManager.readable loc.id).read (ReadCache.blockOffset i)
        ReadCache.blockSize = some (ReadCache.blockOf (db.fileManager.readable loc.id) q) := by
      have hend := has.end_le hholds
      have hlt := htouches.2
      rw [hi.offset, ReadableFile.read, if_pos, ReadCache.blockOf]
      refine ⟨?_, rfl⟩
      change _ ≤ kMaxFileBytes
      rw [kMaxFileBytes] at hend ⊢
      rw [ReadCache.blockSize]
      omega
    refine ⟨.block (ctx.addBlock i (ReadCache.blockOf (db.fileManager.readable loc.id) q)) (i + 1)
      (some loc.id), db.readCache.put i (ReadCache.blockOf (db.fileManager.readable loc.id) q),
      db.fileManager.openFiles, ?_, ⟨loc, e, q + 1, ?_⟩, ?_⟩
    · rw [next, hid, fillBlock, hread]
    · exact has.addBlock hholds hbound htouches (Or.inr rfl)
    · simp only [rank, hmod', Opening.rank]
      omega
  · -- A section of the file cache comes first.
    obtain ⟨o', openFiles, hnext, hsound', hrank⟩ := hsound.next (ReadCache.blockFile i)
      db.fileManager hopened fun ho => by rw [ho] at hclear; exact hclear
    refine ⟨.fill ctx i file o', db.readCache, openFiles, ?_,
      ⟨loc, e, q, has, htouches, hsound'⟩, ?_⟩
    · rw [next_fill hsound hopened, hnext]
      rfl
    · simp only [rank]
      omega

/-- One section of `Get`. -/
theorem Ok.next {g : Getting} (hok : g.Ok opt db.fileManager L key ⟨.kOk, some value⟩)
    (hpointed : db.Pointed L) (hrecord : db.HasRecord key (DBImpl.stored opt value))
    (hclear : g.Clear opt db) :
    g = .returned ⟨.kOk, some value⟩ ∨ Goes opt db L key ⟨.kOk, some value⟩ g := by
  cases g with
  | idle => exact hok.elim
  | lookup use_read_cache k =>
    obtain rfl : k = key := hok
    exact Or.inr (goes_lookup hholds hpointed hrecord hclear)
  | direct dir o => exact Or.inr (goes_direct hholds hok hclear)
  | block ctx i file => exact Or.inr (goes_block hholds hbound hok hclear)
  | fill ctx i file o => exact Or.inr (goes_fill hholds hbound hok hclear)
  | returned r => exact Or.inl (congrArg returned hok)

end Getting

/-! ### Runs -/

namespace Process

variable {s s' : Process} {x : Action}

variable (opt) in
/-- `Get` finds what it needs. -/
def Clear (s : Process) : Action → Prop
  | .get => s.get.Clear opt s.db
  | _ => True

instance (s : Process) : (x : Action) → Decidable (s.Clear opt x)
  | .get => inferInstanceAs (Decidable (s.get.Clear opt s.db))
  | .write _ _ | .compact _ _ | .next _ | .task _ | .call _ _ => .isTrue trivial

theorem Inv.start (h : db.Sound L) : Inv opt (Process.start db) L where
  holds := h.holds
  bound := h.registered.bound
  pointed key dir hfind := by
    obtain ⟨e, hloc, hkey, -, hsize⟩ := h.pointed key dir hfind
    exact ⟨e, hloc, hkey, hsize⟩
  threads _ := trivial

/-- What is known in a state of a run in which `Get` is to answer with `value`. -/
structure Serves (opt : Options) (key : Key) (value : Bytes) (s : Process) (L : Log) : Prop where
  inv : Inv opt s L
  ok : s.get.Ok opt s.db.fileManager L key ⟨.kOk, some value⟩

/-- A section of `Get`. -/
theorem Serves.step_get (h : Serves opt key value s L)
    (hrecord : s.db.HasRecord key (DBImpl.stored opt value)) (hclear : s.get.Clear opt s.db)
    (hstep : step opt s .get = some s') :
    ∃ L', Serves opt key value s' L' ∧ s'.get.rank < s.get.rank := by
  obtain ⟨L', hinv, ha⟩ := h.inv.step (x := .get) trivial hstep
  obtain ⟨⟨g, db⟩, hnext, rfl⟩ := Option.map_eq_some_iff.mp hstep
  rcases h.ok.next h.inv.holds h.inv.bound h.inv.pointed hrecord hclear with hreturned | hgoes
  · rw [hreturned] at hnext
    cases hnext
  · obtain ⟨g', readCache, openFiles, hnext', hok, hrank⟩ := hgoes
    obtain ⟨rfl, -⟩ := Prod.mk.inj (Option.some_inj.mp (hnext.symm.trans hnext'))
    exact ⟨L', ⟨hinv, hok.advances h.inv.holds ha⟩, hrank⟩

/-- A step of the rest of the process. -/
theorem Serves.step_of_ne (h : Serves opt key value s L) (hw : s.Within opt x) (hget : x ≠ .get)
    (hcall : ∀ use_read_cache k, x ≠ .call use_read_cache k) (hstep : step opt s x = some s') :
    ∃ L', Serves opt key value s' L' ∧ s'.get = s.get := by
  obtain ⟨L', hinv, ha⟩ := h.inv.step hw hstep
  have hsame : s'.get = s.get := get_eq_of_step hget hcall hstep
  exact ⟨L', ⟨hinv, hsame ▸ h.ok.advances h.inv.holds ha⟩, hsame⟩

/-- `Get(key)` is called in any state that the process reaches. While the key keeps a record with
the value, and as long as `Get` finds what it needs, it goes on until it has returned the value. -/
theorem get_of_run {use_read_cache : Bool} {before as : List Action} {s₀ s₁ : Process}
    (hsound : db.Sound L) (hbefore : Run (step opt) (start db) before s₀)
    (hwithin : Meets (step opt) (Within opt) (start db) before)
    (hcall : step opt s₀ (.call use_read_cache key) = some s₁) (hrun : Run (step opt) s₁ as s)
    (hcalls : ∀ use_read_cache k, .call use_read_cache k ∉ as)
    (hmeets : Meets (step opt) (fun s x => s.Within opt x ∧ s.Clear opt x) s₁ as)
    (hrecord : Meets (step opt) (fun s _ => s.db.HasRecord key (DBImpl.stored opt value)) s₁ as) :
    s.get.reply = some ⟨.kOk, some value⟩ ∨
      (step opt s .get).isSome ∧ as.count .get < 5 * 2 ^ 20 + 2 := by
  -- Until the call.
  obtain ⟨L₀, hinv₀⟩ := hbefore.invariant (P := fun s => ∃ L, Inv opt s L) hwithin
    ⟨L, .start hsound⟩ fun s x s' ⟨L, hinv⟩ hw hstep => by
      obtain ⟨L', hinv', -⟩ := hinv.step hw hstep
      exact ⟨L', hinv'⟩
  -- The call itself.
  have hserves : ∃ L₁, Serves opt key value s₁ L₁ ∧ s₁.get.rank = 5 * 2 ^ 20 + 2 := by
    obtain ⟨L₁, hinv₁, -⟩ := hinv₀.step (x := .call use_read_cache key) trivial hcall
    have hget : s₁.get = .lookup use_read_cache key := get_of_call hcall
    exact ⟨L₁, ⟨hinv₁, by rw [hget]; rfl⟩, by rw [hget]; rfl⟩
  -- Every section of `Get` lowers the rank, and the other steps leave it as it is.
  have hguard : Meets (step opt) (fun s x => (s.Within opt x ∧ s.Clear opt x) ∧
      s.db.HasRecord key (DBImpl.stored opt value) ∧ x ∈ as) s₁ as := by
    intro pre x post u heq hu
    exact ⟨hmeets pre x post u heq hu, hrecord pre x post u heq hu,
      heq ▸ List.mem_append_right _ List.mem_cons_self⟩
  obtain ⟨L', hfinal, hrank⟩ := hrun.history
    (P := fun bs s => ∃ L, Serves opt key value s L ∧
      bs.count .get + s.get.rank ≤ 5 * 2 ^ 20 + 2) hguard (by
        obtain ⟨L₁, h, hrank⟩ := hserves
        exact ⟨L₁, h, by rw [List.count_nil, hrank, Nat.zero_add]⟩) (by
    intro bs s x s' ⟨L, h, hrank⟩ ⟨⟨hw, hclear⟩, hrecord, hmem⟩ hstep
    by_cases hget : x = .get
    · subst hget
      obtain ⟨L', h', hlt⟩ := h.step_get hrecord hclear hstep
      refine ⟨L', h', ?_⟩
      rw [List.count_append, List.count_singleton_self]
      omega
    · obtain ⟨L', h', hsame⟩ := h.step_of_ne hw hget (fun u k hx => hcalls u k (hx ▸ hmem)) hstep
      refine ⟨L', h', ?_⟩
      rw [List.count_append, List.count_singleton, hsame]
      simpa [hget] using hrank)
  -- At the end of the run the rank bounds the sections that are left.
  rcases hfinal.ok.isSome_next s.db with hreturned | ⟨hsome, hpos⟩
  · exact Or.inl (congrArg Getting.reply hreturned)
  · refine Or.inr ⟨?_, by omega⟩
    rw [step, Option.isSome_map]
    exact hsome

end Process

end

namespace Process

open scoped Reference

/-- A key is put. -/
def put (t : ℕ) (w : Write) : List Action := .write t w :: List.replicate 3 (.next t)

/-- The key is read, and `Compact(1)` begins in between. -/
def getDuring : List Action := [.get, .compact 1 1, .get, .next 1, .get]

theorem get_of_run_during : ∃ s₀ s₁ s,
    Run (step Reference.options) (start (Session.newDb Reference.options []))
      (put 0 (.put [107] [1])) s₀ ∧
    step Reference.options s₀ (.call false [107]) = some s₁ ∧
    Run (step Reference.options) s₁ getDuring s ∧ s.get.reply = some ⟨.kOk, some [1]⟩ := by
  have hrun : ((put 0 (.put [107] [1])).foldlM (step Reference.options)
      (start (Session.newDb Reference.options []))).bind (fun s₀ =>
        (step Reference.options s₀ (.call false [107])).bind fun s₁ =>
          (getDuring.foldlM (step Reference.options) s₁).map fun s =>
            decide ((step Reference.options s .get).isSome = false ∧
              check (step Reference.options)
                (fun s a => s.Within Reference.options a ∧ s.Clear Reference.options a) s₁
                getDuring = true ∧
              check (step Reference.options) (fun s _ => s.db.HasRecord [107] [1]) s₁
                getDuring = true)) = some true := by decide +kernel
  obtain ⟨s₀, hbefore, hrun⟩ := Option.bind_eq_some_iff.mp hrun
  obtain ⟨s₁, hcall, hrun⟩ := Option.bind_eq_some_iff.mp hrun
  obtain ⟨s, hafter, htrue⟩ := Option.map_eq_some_iff.mp hrun
  obtain ⟨hdone, hmeets, hrecord⟩ := of_decide_eq_true htrue
  have h := get_of_run Session.newDb_sound hbefore (meets_of_check (by decide +kernel)) hcall hafter
    (by simp [getDuring]) (meets_of_check hmeets) (meets_of_check hrecord)
  refine ⟨s₀, s₁, s, hbefore, hcall, hafter, h.resolve_right fun hmore => ?_⟩
  rw [hdone] at hmore
  exact absurd hmore.1 Bool.false_ne_true

/-- `Get` copies the location of the record in file 1, `Compact(1)` moves the record and removes
the file, and `Get` opens the file. -/
def getRemoved : List Action :=
  .get :: .compact 1 1 :: List.replicate 13 (.next 1) ++ List.replicate 3 .get

/-- The key has its record all the time, and is not written, but `Get` fails. -/
theorem exists_get_failed : ∃ db s₁ s, Concurrent.sealedFile = some db ∧
    step Reference.options (start db) (.call false [107]) = some s₁ ∧
    Run (step Reference.options) s₁ getRemoved s ∧
    Meets (step Reference.options) (fun s a => s.db.HasRecord [107] [2] ∧ ∀ t w, a ≠ .write t w)
      s₁ getRemoved ∧
    s.db.HasRecord [107] [2] ∧ s.get.reply = some ⟨.kIOError, none⟩ := by
  have hrun : (Concurrent.sealedFile.bind fun db =>
      (step Reference.options (start db) (.call false [107])).bind fun s₁ =>
        (getRemoved.foldlM (step Reference.options) s₁).map fun s =>
          decide (check (step Reference.options) (fun s _ => s.db.HasRecord [107] [2]) s₁
              getRemoved = true ∧ s.db.HasRecord [107] [2] ∧
            s.get.reply = some ⟨.kIOError, none⟩)) = some true := by decide +kernel
  obtain ⟨db, hdb, hrun⟩ := Option.bind_eq_some_iff.mp hrun
  obtain ⟨s₁, hcall, hrun⟩ := Option.bind_eq_some_iff.mp hrun
  obtain ⟨s, hafter, htrue⟩ := Option.map_eq_some_iff.mp hrun
  obtain ⟨hrecord, hlast, hreply⟩ := of_decide_eq_true htrue
  refine ⟨db, s₁, s, hdb, hcall, hafter, fun pre a post t heq ht => ⟨?_, ?_⟩, hlast,
    hreply⟩
  · exact meets_of_check hrecord pre a post t heq ht
  · rintro u w rfl
    have hmem : Action.write u w ∈ getRemoved := heq ▸ List.mem_append_right _ List.mem_cons_self
    simp [getRemoved] at hmem

end Process

end PedroDB
