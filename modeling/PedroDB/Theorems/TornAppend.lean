import PedroDB.Interrupted
import PedroDB.Theorems.ReadYourWrites

/-!
# Dying inside `Append`

A process that dies while it packs a record leaves a prefix of the record. After the
database is opened again every `Get` answers as before the write, but for one key: that of
the record which the prefix and the zeros behind it are read back as.

## Main definitions

* `Session.Harmless` — the answer for that key is an old one or the new one
* `Session.Gives` — what every `Get` answers

## Main results

* `Session.gives_torn_iff` — the write is atomic exactly if the torn record is harmless
* `Session.exists_not_atomic` — a cut behind the type byte makes an empty key appear
-/

namespace PedroDB.Session

open Transition LastWriter

section

variable [Platform] {opt : Options} {name : Bytes} {as : List Action} {s s' : Session}
  {a : Action} {L L' : Log} {key : Key} {e : Entry} {w : Write} {db : DBImpl}

/-- What holds along a run of accesses: the index holds what was written and reflects all
records, and they are in registered files. -/
structure Remembers (opt : Options) (name : Bytes) (s : Session) (L : Log) (as : List Action) :
    Prop extends Answers opt s L as where
  reflects : Reflects recordView {r | Located L r.1 r.2} s.db.find
  full : L.restrict s.db.fileManager.metadata.files = L
  name : s.db.fileManager.metadata.name = name

omit [Platform] in
/-- The records of a log to which one was added. -/
theorem setOf_located_add (L : Log) (id : ℕ) (e : Entry) :
    {r : Location × Entry | Located (L.add id e) r.1 r.2} =
      insert ((L.endOf id, e) : Location × Entry) {r | Located L r.1 r.2} := by
  ext ⟨loc, x⟩
  simp only [Set.mem_ofPred_eq, Set.mem_insert_iff, located_add_iff, Prod.mk.injEq]
  exact or_comm

namespace Remembers

theorem fresh (h : fresh opt name = some s) : Remembers opt name s (fun _ => []) [] := by
  refine { Answers.fresh h with reflects := ?_, full := ?_, name := ?_ }
  · have hempty : {r : Location × Entry | Located (fun _ => []) r.1 r.2} = ∅ := by
      ext r
      simp [Located, RecordAt, Framing.not_at_nil]
    have hfind : s.db.find = fun _ => none := by
      rw [(fresh_db h).1]
      rfl
    rw [hempty, hfind]
    exact Reflects.empty
  · funext id
    simp [Log.restrict]
  · rw [(fresh_db h).1]
    exact MetadataManager.createFile_name

/-- All records stand in front of the next one. -/
theorem lt_nextLoc (h : Remembers opt name s L as) {loc : Location} {x : Entry}
    (hloc : Located L loc x) : loc < s.nextLoc e := by
  rw [← h.full, located_restrict_iff] at hloc
  exact Session.lt_nextLoc h.inv.sound hloc.1 hloc.2

/-- The index that one more record leads to. -/
theorem reflects_add (h : Remembers opt name s L as) {e' : Entry} {index : Key → Option Dir}
    (hindex : ∀ k, index k = if k = e'.key then
      if e'.type = .kSet then some { entry_size := e'.size, loc := s.nextLoc e } else none
      else s.db.find k) :
    Reflects recordView {r | Located (L.add (s.nextLoc e).id e') r.1 r.2} index := by
  rw [setOf_located_add, ← h.inv.sound.holds.nextLoc_eq]
  refine h.reflects.insert (fun r hr => h.lt_nextLoc hr) (fun hsets => ?_) (fun hsets => ?_)
    fun k hk => ?_
  · have htype : e'.type = .kSet := hsets
    simp only [hindex, recordView_key, recordView_entry, if_true, htype]
  · have htype : e'.type ≠ .kSet := hsets
    simp only [hindex, recordView_key, if_true, htype, if_false]
  · rw [recordView_key] at hk
    rw [hindex, if_neg hk]

theorem step (h : Remembers opt name s L as) (hlimits : InLimits opt s a) (ha : a.IsAccess)
    (he : Effect opt s L a s' L') : Remembers opt name s' L' (as ++ [a]) := by
  have hanswers := h.toAnswers.step hlimits ha he
  have hname := he.name.trans h.name
  cases he with
  | refused => exact { hanswers with reflects := h.reflects, full := h.full, name := hname }
  | @write w hidle hs hwrap =>
    refine { hanswers with reflects := h.reflects_add fun k => ?_, full := ?_, name := hname }
    · simp only [DBImpl.find_updateIndex, DBImpl.entryOf_key, DBImpl.entryOf_kSet, ne_eq, ite_not,
        hs.sizeOf_eq]
      rfl
    · have hfull := restrict_appended h.inv.sound (DBImpl.entryOf opt w)
      rw [h.full] at hfull
      dsimp only
      rw [DBImpl.updateIndex_fileManager]
      exact hfull
  | get hidle hdb =>
    subst hdb
    exact { hanswers with reflects := h.reflects, full := h.full, name := hname }
  | task hrun =>
    obtain ⟨tasks, indexFiles, rfl⟩ := FileManager.runTask_eq hrun
    exact { hanswers with reflects := h.reflects, full := h.full, name := hname }
  | _ => exact ha.elim

end Remembers

/-- What holds at the end of a run of accesses. -/
theorem remembers (haccess : ∀ a ∈ as, a.IsAccess) (hlimits : Guarded opt (InLimits opt) name as)
    (hreach : Reaches opt name as s) : ∃ L, Remembers opt name s L as := by
  obtain ⟨s₀, hs₀, hrun⟩ := hreach
  have hmeets : Meets (Session.step opt) (fun s a => InLimits opt s a ∧ a.IsAccess) s₀ as := by
    rintro pre a post t rfl hpre
    exact ⟨hlimits s₀ hs₀ pre a post t rfl hpre, haccess a (by simp)⟩
  refine hrun.history (P := fun as s => ∃ L, Remembers opt name s L as) hmeets
    ⟨_, Remembers.fresh hs₀⟩ ?_
  rintro as t a u ⟨L, h⟩ ⟨hl, ha⟩ hstep
  obtain ⟨L', he⟩ := h.inv.effect (hl.within ha) hstep
  exact ⟨L', h.step hl ha he⟩

/-! ### Reading after the restart -/

/-- Every `Get` answers so. -/
def Gives (opt : Options) (db : DBImpl) (buffer : ReadBuffer) (answers : Key → Reply) : Prop :=
  ∀ use_read_cache key, ∃ db' buffer',
    db.handleGet opt use_read_cache key buffer = some (answers key, db', buffer')

theorem Gives.unique {buffer : ReadBuffer} {answers answers' : Key → Reply}
    (h : Gives opt db buffer answers) (h' : Gives opt db buffer answers') :
    answers = answers' := by
  funext key
  obtain ⟨_, _, heq⟩ := h true key
  obtain ⟨_, _, heq'⟩ := h' true key
  exact (Prod.mk.inj (Option.some_inj.mp (heq.symm.trans heq'))).1

/-- No registered data file is written to its very end. -/
def Unfull (fm : FileManager) : Prop :=
  ∀ id ∈ fm.metadata.files, totalSize (fm.log id) < kMaxFileBytes

instance (fm : FileManager) : Decidable (Unfull fm) :=
  inferInstanceAs (Decidable (∀ id ∈ fm.metadata.files, _))

/-- If no file is written to its very end, the index of a reopened database reflects all
records. -/
theorem reflects_reopened {disk : Disk} (h : db.Reopened opt disk L)
    (hunfull : ∀ id, totalSize (L id) < kMaxFileBytes) :
    Reflects recordView {r | Located L r.1 r.2} db.find := by
  have hset : {r : Location × Entry | Located L r.1 r.2} =
      {r | r ∈ L.recovered disk.indexFiles r.1.id} := by
    ext r
    simp only [Set.mem_ofPred_eq, Log.recovered]
    split_ifs
    · simp [Log.mem_records_iff]
    · simp only [List.mem_filter, Log.mem_records_iff, true_and, decide_eq_true_eq, iff_self_and]
      exact fun hloc => hloc.end_le.trans_lt (hunfull _)
  rw [hset]
  exact h.recovers.reflects

/-- `Get` after reopening, if no file is written to its very end. -/
theorem handleGet_reopened {disk : Disk} {dir : Dir} (h : db.Reopened opt disk L)
    (hunfull : ∀ id, totalSize (L id) < kMaxFileBytes) (hfind : db.find key = some dir)
    (hloc : Located L dir.loc e) (hsize : dir.entry_size = e.size) (use_read_cache : Bool)
    (buffer : ReadBuffer) : ∃ db' buffer', db.handleGet opt use_read_cache key buffer =
      some (DBImpl.replyOf opt e, db', buffer') := by
  have hcache : db.fileManager.CacheOk db.readCache := by
    rintro x ⟨i, hx⟩
    simp [h.cache, ReadCache.create, LRUCache.create] at hx
  -- What is read through the cache is in a sealed file.
  have hsettled : DBImpl.directlyRead opt use_read_cache dir db = false → ∀ q,
      ReadCache.Touches dir.loc.offset dir.entry_size q →
        db.fileManager.Settled dir.loc.id q := by
    intro hdirect q _
    refine Or.inl (lt_of_le_of_ne (h.sound.id_le_active hfind) fun hid => ?_)
    simp [DBImpl.directlyRead, h.maxFile, hid] at hdirect
  obtain ⟨db', rest, heq, -⟩ := h.sound.handleGet_some opt use_read_cache buffer hcache hfind hloc
    hsize hsettled
  have hend : dir.loc.offset + dir.entry_size ≠ kMaxFileBytes :=
    ((hsize ▸ hloc.end_le).trans_lt (hunfull _)).ne
  have hhidden : db.hiddenRead opt use_read_cache key = false := by
    simp [DBImpl.hiddenRead, hfind, hend]
  rw [hhidden] at heq
  exact ⟨db', rest, heq⟩

omit [Platform] in
/-- Records at one location are one record. -/
theorem located_inj : ∀ r ∈ {r : Location × Entry | Located L r.1 r.2},
    ∀ r' ∈ {r : Location × Entry | Located L r.1 r.2},
      recordView.pos r = recordView.pos r' → r = r' := by
  rintro ⟨loc, e⟩ h ⟨loc', e'⟩ h' hpos
  obtain rfl : loc = loc' := hpos
  rw [show e = e' from Located.unique h h']

/-- A key whose entry is the one from before the restart is answered for as before. -/
theorem Answers.handleGet_reopened {disk : Disk} (h : Answers opt s L as)
    (hre : db.Reopened opt disk L') (hunfull : ∀ id, totalSize (L' id) < kMaxFileBytes)
    (hgrows : ∀ loc x, Located L loc x → Located L' loc x)
    (hfind : db.find key = s.db.find key) (use_read_cache : Bool) (buffer : ReadBuffer) :
    ∃ db' buffer', db.handleGet opt use_read_cache key buffer =
      some (expected as key, db', buffer') := by
  rcases hold : s.db.find key with _ | dir
  · refine ⟨db, buffer, ?_⟩
    rw [DBImpl.handleGet_none (hfind.trans hold), expected, h.absent key hold]
  · obtain ⟨w, hloc, hsize, hw⟩ := h.live key dir hold
    obtain ⟨db', rest, heq⟩ := Session.handleGet_reopened hre hunfull (hfind.trans hold)
      (hgrows _ _ hloc) hsize use_read_cache buffer
    exact ⟨db', rest, by rw [heq, expected, hw, DBImpl.replyOf_entryOf]⟩

/-! ### The torn record -/

/-- How `Get` answers for a key whose last record is this one. -/
def answerOf (opt : Options) (e : Entry) : Reply :=
  if e.type = .kSet then DBImpl.replyOf opt e else ⟨.kNotFound, none⟩

/-- What `Get` answers once the record is the last one. -/
def answersAfter (opt : Options) (answers : Key → Reply) (torn : Option Entry) (key : Key) :
    Reply :=
  match torn with
  | none => answers key
  | some e => if key = e.key then answerOf opt e else answers key

/-- The record that the cut one is read back as, if any, is about the key of the write and
answers as the write does, or it answers for its key as was due before. -/
def Harmless (opt : Options) (as : List Action) (w : Write) (cut : ℕ) : Prop :=
  ∀ e ∈ (DBImpl.entryOf opt w).torn cut,
    e.key = w.key ∧ answerOf opt e = expected (as ++ [.write w]) w.key ∨
      answerOf opt e = expected as e.key

omit [Platform] in
theorem expected_write : expected (as ++ [.write w]) key =
    if key = w.key then expected (as ++ [.write w]) w.key else expected as key := by
  by_cases hkey : key = w.key
  · rw [if_pos hkey, hkey]
  · rw [if_neg hkey, expected, written_write, if_neg hkey, expected]

/-- The answers are those from before or from after the write exactly if the torn record
is harmless. -/
theorem answersAfter_iff {cut : ℕ} :
    (answersAfter opt (expected as) ((DBImpl.entryOf opt w).torn cut) = expected as ∨
      answersAfter opt (expected as) ((DBImpl.entryOf opt w).torn cut) =
        expected (as ++ [.write w])) ↔ Harmless opt as w cut := by
  -- No record is read back, so nothing has happened.
  rcases htorn : (DBImpl.entryOf opt w).torn cut with _ | e
  · simp only [Harmless, htorn]
    exact ⟨fun _ _ h => absurd h (by simp), fun _ => Or.inl rfl⟩
  · -- A record is read back, and its key is the only one that can differ.
    have hat : answersAfter opt (expected as) (some e) e.key = answerOf opt e := by
      simp only [answersAfter, if_true]
    simp only [Harmless, htorn, Option.mem_some_iff, forall_eq']
    constructor
    · rintro (h | h)
      · exact Or.inr (hat ▸ congrFun h e.key)
      · have := hat.symm.trans (congrFun h e.key)
        rw [expected_write] at this
        by_cases hkey : e.key = w.key
        · rw [if_pos hkey] at this
          exact Or.inl ⟨hkey, this⟩
        · rw [if_neg hkey] at this
          exact Or.inr this
    · rintro (⟨hkey, h⟩ | h)
      · refine Or.inr (funext fun k => ?_)
        simp only [answersAfter, hkey, h]
        exact expected_write.symm
      · refine Or.inl (funext fun k => ?_)
        simp only [answersAfter, h]
        split_ifs with hk
        · rw [hk]
        · rfl

variable [Platform.BigEndian]

/-- A torn record does not fill its file either. -/
theorem Remembers.addTorn_lt (h : Remembers opt name s L as) (hs : e.Storable)
    (hunfull : Unfull s.db.fileManager) (hfills : ¬ s.db.fileManager.Fills e)
    (hroom : (s.nextLoc e).offset + e.size ≤ kMaxFileBytes) (cut : ℕ) (id : ℕ) :
    totalSize (L.addTorn (s.nextLoc e).id e cut id) < kMaxFileBytes := by
  have hold : ∀ j, totalSize (L j) < kMaxFileBytes := by
    intro j
    by_cases hj : j ∈ s.db.fileManager.metadata.files
    · rw [← h.inv.sound.holds.log_eq]
      exact hunfull j hj
    · rw [← h.full, Log.restrict, if_neg hj]
      decide
  -- The torn file ends before the whole record would have.
  by_cases hid : id = (s.nextLoc e).id
  · subst hid
    rw [Log.addTorn, Function.update_self, totalSize_append]
    have hend : (s.nextLoc e).offset = totalSize (L (s.nextLoc e).id) :=
      congrArg Location.offset h.inv.sound.holds.nextLoc_eq
    have hlt : (s.nextLoc e).offset + e.size < kMaxFileBytes := lt_of_le_of_ne hroom hfills
    have htorn : totalSize (e.torn cut).toList ≤ e.size := by
      rcases Nat.eq_zero_or_pos cut with rfl | hcut
      · rw [Entry.torn_zero]
        exact Nat.zero_le _
      · obtain ⟨e', htorn, -, -, hsize, -⟩ := Entry.exists_torn hs hcut
        rw [htorn, Option.toList_some, totalSize_cons]
        exact hsize
    omega
  · rw [Log.addTorn, Function.update_of_ne hid]
    exact hold id

/-- Whatever was packed of a record, the database opens again, and every `Get` answers as
before, but for the key of the torn record. -/
theorem Remembers.gives_torn (h : Remembers opt name s L as) (hname : name.length < 2 ^ 16)
    (hlimits : InLimits opt s (.write w)) (hunfull : Unfull s.db.fileManager)
    (hfills : ¬ s.db.fileManager.Fills (DBImpl.entryOf opt w)) (cut : ℕ) (buffer : ReadBuffer) :
    ∃ torn db rest, s.db.tornPut opt .sound w cut = some torn ∧
      DBImpl.openDb opt .sound name torn.fileManager.disk buffer = some (.kOk, db, rest) ∧
        Gives opt db rest (answersAfter opt (expected as) ((DBImpl.entryOf opt w).torn cut)) := by
  obtain ⟨hkey, hsize, hwrap⟩ := hlimits
  obtain ⟨e, he⟩ : ∃ e, e = DBImpl.entryOf opt w := ⟨_, rfl⟩
  have hs : e.Storable := he ▸ DBImpl.entryOf_storable hkey hsize
  rw [← he] at hwrap hfills ⊢
  have hsound := h.inv.sound
  -- The put stops within `Append`.
  have htorn : s.db.tornPut opt .sound w cut =
      some { s.db with fileManager := s.db.fileManager.tornAppended e cut } := by
    rw [DBImpl.tornPut, DBImpl.prepare_eq hsound.writable (he ▸ hs), ← he]
    simp only [FileManager.tornAppend_eq hsound.holds hs hwrap, Option.map_some]
  have hdisk : (s.db.fileManager.tornAppended e cut).disk.Holds _ _
      (L.addTorn (s.nextLoc e).id e cut) :=
    FileManager.tornAppended_disk hsound.holds hsound.indexed hsound.registered (h.name ▸ hname)
      hs hwrap h.full
  obtain ⟨db, rest, hopen, hre, -⟩ := hdisk.openDb_eq opt name buffer
  have hroom : (s.nextLoc e).offset + e.size ≤ kMaxFileBytes := by
    have := (located_endOf L (s.nextLoc e).id e).end_le.trans
      ((hsound.holds.appended hs).files _).fits
    rwa [← hsound.holds.nextLoc_eq] at this
  -- No file is full, so the recovery reads every record.
  have hlt := h.addTorn_lt hs hunfull hfills hroom cut
  have hreflects := reflects_reopened hre hlt
  refine ⟨_, db, rest, htorn, hopen, fun use_read_cache key => ?_⟩
  rcases hcut : e.torn cut with _ | e'
  · -- No record is read back, and the log is the old one.
    have hL : L.addTorn (s.nextLoc e).id e cut = L := by
      rw [Log.addTorn, hcut, Option.toList_none, List.append_nil, Function.update_eq_self]
    rw [hL] at hre hlt hreflects
    have hfind : db.find = s.db.find := hreflects.unique located_inj h.reflects
    exact h.toAnswers.handleGet_reopened hre hlt (fun _ _ hloc => hloc) (congrFun hfind key)
      use_read_cache rest
  · -- A shorter record is read back.
    have hL : L.addTorn (s.nextLoc e).id e cut = L.add (s.nextLoc e).id e' := by
      rw [Log.addTorn, hcut, Option.toList_some, Log.add]
    rw [hL] at hre hlt hreflects
    have hfind := congrFun (hreflects.unique located_inj (h.reflects_add fun _ => rfl)) key
    simp only [answersAfter]
    split_ifs at hfind ⊢ with hk htype
    · -- The torn record sets its key.
      have hloc := located_endOf L (s.nextLoc e).id e'
      rw [← hsound.holds.nextLoc_eq] at hloc
      rw [answerOf, if_pos htype]
      exact Session.handleGet_reopened hre hlt hfind hloc rfl use_read_cache rest
    · -- The torn record deletes its key.
      rw [answerOf, if_neg htype]
      exact ⟨db, rest, DBImpl.handleGet_none hfind⟩
    · exact h.toAnswers.handleGet_reopened hre hlt (fun _ _ hloc => hloc.add _ _) hfind
        use_read_cache rest

/-- A process that dies while it packs a record is as if the write had not begun, or as if
it had returned, exactly if the record that the cut one is read back as is harmless. -/
theorem gives_torn_iff (haccess : ∀ a ∈ as, a.IsAccess)
    (hlimits : Guarded opt (InLimits opt) name as) (hreach : Reaches opt name as s)
    (hname : name.length < 2 ^ 16) (hw : InLimits opt s (.write w))
    (hunfull : Unfull s.db.fileManager)
    (hfills : ¬ s.db.fileManager.Fills (DBImpl.entryOf opt w)) (cut : ℕ) (buffer : ReadBuffer) :
    ∃ torn db rest, s.db.tornPut opt .sound w cut = some torn ∧
      DBImpl.openDb opt .sound name torn.fileManager.disk buffer = some (.kOk, db, rest) ∧
        ((Gives opt db rest (expected as) ∨ Gives opt db rest (expected (as ++ [.write w]))) ↔
          Harmless opt as w cut) := by
  obtain ⟨L, h⟩ := remembers haccess hlimits hreach
  obtain ⟨torn, db, rest, htorn, hopen, hgives⟩ :=
    h.gives_torn hname hw hunfull hfills cut buffer
  refine ⟨torn, db, rest, htorn, hopen, ?_⟩
  rw [← answersAfter_iff]
  constructor
  · exact Or.imp hgives.unique hgives.unique
  · rintro (heq | heq)
    · exact Or.inl (heq ▸ hgives)
    · exact Or.inr (heq ▸ hgives)

omit [Platform.BigEndian] in
/-- A write that has not packed a byte, or has packed all of them, is harmless. -/
theorem harmless_of_whole {cut : ℕ} (hs : (DBImpl.entryOf opt w).Storable)
    (hcut : cut = 0 ∨ (DBImpl.entryOf opt w).size ≤ cut) : Harmless opt as w cut := by
  intro e he
  rcases hcut with rfl | hcut
  · rw [Entry.torn_zero] at he
    cases he
  · rw [hs.torn_of_size_le hcut, Option.mem_some_iff] at he
    subst he
    refine Or.inl ⟨rfl, ?_⟩
    rw [answerOf, expected, written_write, if_pos rfl, DBImpl.replyOf_entryOf]
    simp only [DBImpl.entryOf_kSet]
    by_cases hv : w.value = [] <;> simp [hv]

end

open scoped Reference

instance : Platform.BigEndian := ⟨fun bs h => by
  have hlt : bigEndian bs < 2 ^ 32 := by
    have := @bigEndian_lt bs
    rwa [h] at this
  exact UInt32.toNat_ofNat_of_lt' hlt⟩

theorem gives_torn_putGetDelete : ∃ s, Reaches Reference.options [] putGetDelete s ∧
    ∀ cut, ∃ torn db rest,
      s.db.tornPut Reference.options .sound (.put [108] [118]) cut = some torn ∧
      DBImpl.openDb Reference.options .sound [] torn.fileManager.disk ReadBuffer.empty =
        some (.kOk, db, rest) ∧
        ((Gives Reference.options db rest (expected putGetDelete) ∨
          Gives Reference.options db rest
            (expected (putGetDelete ++ [.write (.put [108] [118])]))) ↔
          Harmless Reference.options putGetDelete (.put [108] [118]) cut) := by
  obtain ⟨s₀, hs₀, -⟩ := exists_fresh Reference.options []
  have hrun : (((fresh Reference.options []).bind fun s =>
      putGetDelete.foldlM (step Reference.options) s).map fun s =>
        decide (InLimits Reference.options s (.write (.put [108] [118])) ∧
          Unfull s.db.fileManager ∧ ¬ s.db.fileManager.Fills
            (DBImpl.entryOf Reference.options (.put [108] [118])))) = some true := by
    decide +kernel
  rw [hs₀] at hrun
  obtain ⟨s, hs, htrue⟩ := Option.map_eq_some_iff.mp hrun
  obtain ⟨hw, hunfull, hfills⟩ := of_decide_eq_true htrue
  exact ⟨s, ⟨s₀, hs₀, hs⟩, fun cut => gives_torn_iff (by decide)
    (guarded_of_check (by decide +kernel)) ⟨s₀, hs₀, hs⟩ (by decide) hw hunfull hfills cut
      ReadBuffer.empty⟩

/-- If only the type of the first record has arrived, `Get` finds an empty key. -/
theorem exists_not_atomic : ∃ w cut s torn db rest reply db' rest',
    Reaches Reference.options [] [] s ∧ InLimits Reference.options s (.write w) ∧
      s.db.tornPut Reference.options .sound w cut = some torn ∧
      DBImpl.openDb Reference.options .sound [] torn.fileManager.disk ReadBuffer.empty =
        some (.kOk, db, rest) ∧
      db.handleGet Reference.options true [] rest = some (reply, db', rest') ∧
      reply = ⟨.kOk, some []⟩ ∧ (expected [] []).status = .kNotFound ∧
      (expected [.write w] []).status = .kNotFound := by
  obtain ⟨s, hs, -⟩ := exists_fresh Reference.options []
  have hrun : ((fresh Reference.options []).map fun s =>
      decide (InLimits Reference.options s (.write (.put [107] [118])) ∧
        ((s.db.tornPut Reference.options .sound (.put [107] [118]) 1).bind fun torn =>
          (DBImpl.openDb Reference.options .sound [] torn.fileManager.disk
            ReadBuffer.empty).bind fun r =>
              (r.2.1.handleGet Reference.options true [] r.2.2).map fun g => (r.1, g.1)) =
                some (.kOk, ⟨.kOk, some []⟩))) = some true := by
    decide +kernel
  rw [hs, Option.map_some, Option.some_inj] at hrun
  obtain ⟨hw, hget⟩ := of_decide_eq_true hrun
  obtain ⟨torn, htorn, hget⟩ := Option.bind_eq_some_iff.mp hget
  obtain ⟨⟨status, db, rest⟩, hopen, hget⟩ := Option.bind_eq_some_iff.mp hget
  obtain ⟨⟨reply, db', rest'⟩, hget, heq⟩ := Option.map_eq_some_iff.mp hget
  obtain ⟨rfl, rfl⟩ := Prod.mk.inj heq
  exact ⟨.put [107] [118], 1, s, torn, db, rest, _, db', rest', ⟨s, hs, run_nil.mpr rfl⟩, hw, htorn,
    hopen, hget, rfl, rfl, by decide⟩

end PedroDB.Session
