import PedroDB.Appenders
import PedroDB.Reference
import PedroDB.Session

/-!
# The log under concurrent appenders

However the sections of any number of `Append` calls are interleaved, every data file is
the concatenation of the records allocated in it, every caller finds its own record where
it was told, and a call that begins after another one returned gets a greater location,
as long as the 32-bit file ids do not run out.

## Main definitions

* `Appenders.Sequenced` — files, locations and roll-overs are in order

## Main results

* `Appenders.sequenced_of_run` — all along every run, and from each state on
* `Appenders.exists_not_increasing` — behind file `2 ^ 32 - 1` comes file `0`
-/

namespace PedroDB.Appenders

open Framing Transition

section

variable [Platform] {s s' : Appenders} {a : Action} {t u : ℕ} {e e' : Entry} {loc loc' : Location}

/-- No two calls returned the same location. -/
def Distinct (s : Appenders) : Prop :=
  ∀ t u e e' loc loc', t ≠ u → s.calls t = .returned e loc → s.calls u = .returned e' loc' →
    loc ≠ loc'

/-- Every data file is the concatenation of the records allocated in it, and zeros; each
location that was returned is that of the caller's record, and of no other call; a
roll-over makes the next file active, unless another call did. -/
structure Sequenced (s : Appenders) : Prop where
  files : ∀ id, (s.fm.dataFiles id).data = Padded.ofList 0 (packAll (s.log id)) ∧
    (packAll (s.log id)).length ≤ kMaxFileBytes
  own : ∀ t e loc, s.calls t = .returned e loc →
    (Entry.unPack ((FileManager.readableBuffer (s.fm.dataFiles loc.id)).retrieve loc.offset)).1 =
      some e
  distinct : s.Distinct
  successor : ∀ t e c s', s.calls t = .rollOver e c → s.Within (.next t) →
    s.step (.next t) = some s' →
      c.fileId = s.fm.activeFileId ∧ s'.fm.activeFileId = c.fileId + 1 ∧
          s'.fm.metadata.files = insert (c.fileId + 1) s.fm.metadata.files ∨
        c.fileId < s.fm.activeFileId ∧ s'.fm = s.fm

/-! ### Distinct locations -/

omit [Platform] in
/-- A call that has not just returned brings no new location. -/
theorem Distinct.update {fm : FileManager} {L : Log} {c : Appending} (h : s.Distinct) (t : ℕ)
    (hc : ∀ e loc, c = .returned e loc →
      ∀ u e' loc', u ≠ t → s.calls u = .returned e' loc' → loc' ≠ loc) :
    Distinct { fm, calls := Function.update s.calls t c, log := L } := by
  intro x y e e' loc loc' hxy hx hy
  dsimp only at hx hy
  by_cases hxt : x = t
  · subst hxt
    rw [Function.update_self] at hx
    rw [Function.update_of_ne (Ne.symm hxy)] at hy
    exact (hc e loc hx y e' loc' (Ne.symm hxy) hy).symm
  · rw [Function.update_of_ne hxt] at hx
    by_cases hyt : y = t
    · subst hyt
      rw [Function.update_self] at hy
      exact hc e' loc' hy x e loc hxt hx
    · rw [Function.update_of_ne hyt] at hy
      exact h x y e e' loc loc' hxy hx hy

theorem Effect.distinct (he : Effect s a s') (hinv : s.Inv) (h : s.Distinct) : s'.Distinct := by
  cases he with
  | call => exact h.update _ (by simp)
  | capture => exact h.update _ (by simp)
  | @allocated t id e hc hs hid hfits =>
    refine h.update t ?_
    rintro _ _ ⟨⟩ u e' loc' hu hret rfl
    -- What was returned before is in front of the end of its file.
    have hok := hinv.calls u
    rw [hret] at hok
    have hend := Located.end_le hok.2
    have hpos := e'.size_pos
    simp only [Log.endOf] at hend
    omega
  | full => exact h.update _ (by simp)
  | rolled => exact h.update _ (by simp)
  | raced => exact h.update _ (by simp)
  | task => exact h
  | retry => exact h

/-! ### Increasing locations -/

/-- What is in the way of a call that begins behind location `loc`. -/
def Behind (loc : Location) : Appending → Prop
  | .allocate _ c => loc.id ≤ c.fileId
  | .rollOver _ c => loc.id ≤ c.fileId
  | .returned _ loc' => loc < loc'
  | _ => True

/-- A call that begins when `loc` was returned stays behind it. -/
theorem Effect.behind (he : Effect s a s') (hloc : Located s.log loc e)
    (hactive : loc.id ≤ s.fm.activeFileId) (h : Behind loc (s.calls u)) :
    Behind loc (s'.calls u) := by
  -- Only the thread itself leaves its position.
  have hupdate : ∀ {t c}, Behind loc c → Behind loc (Function.update s.calls t c u) := by
    intro t c hc
    by_cases hu : u = t
    · subst hu
      rwa [Function.update_self]
    · rwa [Function.update_of_ne hu]
  cases he with
  | call => exact hupdate trivial
  | capture => exact hupdate hactive
  | @allocated t id x hc hs hid hfits =>
    -- What is allocated stands behind every record that was there.
    by_cases hu : u = t
    · subst hu
      rw [hc] at h
      simp only [Function.update_self]
      exact hloc.lt_endOf h
    · simp only [Function.update_of_ne hu]
      exact h
  | @full t id x hc hfull =>
    by_cases hu : u = t
    · subst hu
      rw [hc] at h
      exact hupdate h
    · simp only [setCall, Function.update_of_ne hu]
      exact h
  | rolled => exact hupdate trivial
  | raced => exact hupdate trivial
  | task => exact h
  | retry => exact h

/-- A call that begins when another one has returned gets a greater location. -/
theorem Inv.lt_of_run {bs : List Action} (h : s.Inv) (hmeets : Meets Appenders.step Within s bs)
    (hrun : Run Appenders.step s bs s') (hret : s.calls t = .returned e loc) (hidle : s.calls u = .idle)
    (hret' : s'.calls u = .returned e' loc') : loc < loc' := by
  have hok := h.calls t
  rw [hret] at hok
  have hall : s'.Inv ∧ s.fm.Grows s.log s'.fm s'.log ∧ Behind loc (s'.calls u) := by
    refine hrun.invariant
      (P := fun v => v.Inv ∧ s.fm.Grows s.log v.fm v.log ∧ Behind loc (v.calls u)) hmeets
      ⟨h, FileManager.Grows.refl _ _, by rw [hidle]; trivial⟩ ?_
    rintro v a w ⟨hv, hg, hb⟩ hw hstep
    have he := hv.effect hw hstep
    exact ⟨hv.step hw he, hg.trans he.grows,
      he.behind (hg.located loc e hok.2) (hok.1.trans hg.active) hb⟩
  have hb := hall.2.2
  rwa [hret'] at hb

/-! ### All of it -/

theorem Inv.successor {c : Capture} (h : s.Inv) (hc : s.calls t = .rollOver e c)
    (hw : s.Within (.next t)) (hstep : s.step (.next t) = some s') :
    c.fileId = s.fm.activeFileId ∧ s'.fm.activeFileId = c.fileId + 1 ∧
        s'.fm.metadata.files = insert (c.fileId + 1) s.fm.metadata.files ∨
      c.fileId < s.fm.activeFileId ∧ s'.fm = s.fm := by
  have he := h.effect hw hstep
  cases he with
  | rolled hc' =>
    obtain ⟨-, rfl⟩ := Appending.rollOver.inj (hc.symm.trans hc')
    exact Or.inl ⟨rfl, rfl, MetadataManager.createFile_files⟩
  | raced hc' hid =>
    obtain ⟨-, rfl⟩ := Appending.rollOver.inj (hc.symm.trans hc')
    exact Or.inr ⟨hid, rfl⟩
  | capture hc' => cases hc.symm.trans hc'
  | allocated hc' => cases hc.symm.trans hc'
  | full hc' => cases hc.symm.trans hc'

theorem Inv.sequenced (h : s.Inv) (hdistinct : s.Distinct) : s.Sequenced where
  files id := ⟨(h.holds.files id).data, length_packAll.trans_le (h.holds.files id).fits⟩
  own t e loc hret := by
    have hok := h.calls t
    rw [hret] at hok
    rw [(h.holds.files loc.id).unPack_eq hok.2]
  distinct := hdistinct
  successor t e c s' hc hw hstep := h.successor hc hw hstep

/-- All along every run of calls of `Append` the files, the locations and the roll-overs
are in order, and a call that begins when another one has returned gets a greater
location, as long as the file ids do not run out. -/
theorem sequenced_of_run {fm : FileManager} {L : Log} {as : List Action} (h : fm.Holds L)
    (hmeets : Meets step Within (start fm L) as) (hrun : Run step (start fm L) as s) :
    s.Sequenced ∧ ∀ bs s', Meets step Within s bs → Run step s bs s' →
      s.fm.activeFileId ≤ s'.fm.activeFileId ∧
        ∀ t u e e' loc loc', s.calls t = .returned e loc → s.calls u = .idle →
          s'.calls u = .returned e' loc' → loc < loc' := by
  have hall : s.Inv ∧ s.Distinct := by
    refine hrun.invariant (P := fun v => v.Inv ∧ v.Distinct) hmeets
      ⟨Inv.start h, by intro t u e e' loc loc' _ hret; cases hret⟩ ?_
    rintro v a w ⟨hv, hd⟩ hw hstep
    have he := hv.effect hw hstep
    exact ⟨hv.step hw he, he.distinct hv hd⟩
  obtain ⟨hinv, hdistinct⟩ := hall
  refine ⟨hinv.sequenced hdistinct, fun bs s' hmeets' hrun' => ⟨?_, ?_⟩⟩
  · exact (hinv.run hmeets' hrun').2.active
  · intro t u e e' loc loc' hret hidle hret'
    exact hinv.lt_of_run hmeets' hrun' hret hidle hret'

omit [Platform] in
/-- A record that fills a file. -/
theorem exists_filling : ∃ e : Entry, e.Storable ∧ e.size = kMaxFileBytes :=
  ⟨Reference.filler (kMaxFileBytes - 14), Reference.filler_storable (by decide),
    Reference.size_filler _⟩

/-- The files of a database, opened when its only registered file has the last id. -/
def lastFiles : FileManager :=
  ((FileManager.create 8 ((MetadataManager.createDatabase []).createFile .sound (2 ^ 32 - 1)).2
    (fun _ => DataFile.absent) fun _ => none).init .sound).2

theorem lastFiles_eq : lastFiles = FileManager.openActive (2 ^ 32 - 1)
    (FileManager.create 8 ((MetadataManager.createDatabase []).createFile .sound (2 ^ 32 - 1)).2
      (fun _ => DataFile.absent) fun _ => none) := by
  have hfiles : ((MetadataManager.createDatabase []).createFile .sound (2 ^ 32 - 1)).2.getFiles =
      [2 ^ 32 - 1] := by
    rw [MetadataManager.getFiles, MetadataManager.createFile_files]
    simp [MetadataManager.createDatabase]
  rw [lastFiles, FileManager.init]
  simp only [FileManager.create, hfiles, List.getLast?_singleton]
  rfl

theorem lastFiles_holds : lastFiles.Holds fun _ => [] := by
  have habsent : ∀ fm : FileManager, (∀ id, fm.dataFiles id = DataFile.absent) →
      (FileManager.openActive (2 ^ 32 - 1) fm).Holds fun _ => [] := by
    intro fm hfm
    have hopened : (fm.opened (2 ^ 32 - 1)).Holds [] := by
      rw [FileManager.opened, hfm]
      exact FileManager.absent_holds
    refine ⟨FileManager.openActive_laid (fun j _ => (hfm j).symm ▸ FileManager.absent_holds) hopened,
      fun id hid => ?_⟩
    rw [FileManager.openActive_eq hopened] at hid ⊢
    have hne : id ≠ 2 ^ 32 - 1 := Nat.ne_of_gt hid
    simp only [Function.update_of_ne hne, hfm, DataFile.absent, and_self]
  rw [lastFiles_eq]
  exact habsent _ fun _ => rfl

theorem lastFiles_activeFileId : lastFiles.activeFileId = 2 ^ 32 - 1 := by
  rw [lastFiles_eq]
  rfl

theorem lastFiles_dataFiles {id : ℕ} (hid : id ≠ 2 ^ 32 - 1) :
    lastFiles.dataFiles id = DataFile.absent := by
  rw [lastFiles_eq]
  exact Function.update_of_ne hid _ _

/-- Behind the last file id comes file `0`. -/
theorem exists_rolled_to_zero {fm : FileManager} {L : Log} (h : fm.Holds L)
    (hlast : fm.activeFileId = 2 ^ 32 - 1) (hlinked : (fm.dataFiles 0).linked = false)
    (hL : L 0 = []) :
    ∃ fm', fm.rollOver .sound fm.capture = (.kOk, fm') ∧ fm'.Laid L ∧ fm'.activeFileId = 0 ∧
      fm'.activeOffset = 0 := by
  obtain ⟨log, tasks, hseal⟩ : ∃ log tasks,
      fm.scheduleSeal = { fm with activeIndexLog := log, tasks } := by
    unfold FileManager.scheduleSeal
    rw [h.data]
    exact ⟨_, _, rfl⟩
  -- The id wraps around, and the file of that id is opened as a new one.
  have hzero : u32 (fm.activeFileId + 1) = 0 := by
    rw [hlast]
    decide
  have hopened : (fm.scheduleSeal.opened 0).Holds (L 0) := by
    rw [hseal, FileManager.opened, hlinked, hL]
    exact FileManager.absent_holds
  have hlaid : (FileManager.openActive 0 fm.scheduleSeal).Laid L := by
    refine FileManager.openActive_laid (fun j _ => ?_) hopened
    rw [hseal]
    exact h.files j
  have hactive : (FileManager.openActive 0 fm.scheduleSeal).activeFileId = 0 := by
    rw [FileManager.openActive_eq hopened]
  refine ⟨_, ?_, hlaid, hactive, ?_⟩
  · rw [h.capture_eq, FileManager.rollOver, if_neg (by simp)]
    dsimp only
    rw [hzero]
    rfl
  · rw [hlaid.write, hactive, hL]
    rfl

end

open scoped Reference

/-- Two calls on a new database, one section each in turn. -/
def twoAppends : List Action :=
  [.call 0 (DBImpl.entryOf Reference.options (.put [107] [118])),
    .call 1 (DBImpl.entryOf Reference.options (.delete [107])), .next 0, .next 1, .next 0, .next 1]

theorem sequenced_of_run_twoAppends : ∃ s,
    Run step (start (Session.newFiles Reference.options []) fun _ => []) twoAppends s ∧
    s.Sequenced ∧ ∀ bs s', Meets step Within s bs → Run step s bs s' →
      s.fm.activeFileId ≤ s'.fm.activeFileId ∧
        ∀ t u e e' loc loc', s.calls t = .returned e loc → s.calls u = .idle →
          s'.calls u = .returned e' loc' → loc < loc' := by
  have hsome : (twoAppends.foldlM step
      (start (Session.newFiles Reference.options []) fun _ => [])).isSome := by decide +kernel
  obtain ⟨s, hs⟩ := Option.isSome_iff_exists.mp hsome
  exact ⟨s, hs, sequenced_of_run Session.newFiles_holds (meets_of_check (by decide +kernel)) hs⟩

/-- Two records that each fill a file are appended when the last file id is in use: the
second one gets the smaller location. -/
theorem exists_not_increasing : ∃ (e : Entry) (s s' : Appenders), e.Storable ∧
    lastFiles.Holds (fun _ => []) ∧
    Run step (start lastFiles fun _ => []) [.call 0 e, .next 0, .next 0] s ∧
    Run step s [.call 1 e, .next 1, .next 1, .next 1, .next 1, .next 1] s' ∧
    s.calls 0 = .returned e ⟨2 ^ 32 - 1, 0⟩ ∧ s.calls 1 = .idle ∧
    s'.calls 1 = .returned e ⟨0, 0⟩ ∧ (⟨0, 0⟩ : Location) < ⟨2 ^ 32 - 1, 0⟩ := by
  obtain ⟨e, hs, hsize⟩ := exists_filling
  have hactive := lastFiles_activeFileId
  have hoffset : lastFiles.activeOffset = 0 := lastFiles_holds.write
  have hpos := e.size_pos
  -- The first record fills the last file.
  have hfits : lastFiles.Fits e := by
    rw [FileManager.Fits, hoffset, Nat.zero_add]
    exact hs.size
  obtain ⟨s, hrun, hfm, hlog, hcalls⟩ :=
    exists_appended (t := 0) (s := start lastFiles fun _ => []) lastFiles_holds.toLaid hs rfl hfits
  dsimp only [start] at hfm hlog hcalls
  have hholds : s.fm.Holds s.log := by
    rw [hfm, hlog]
    exact lastFiles_holds.addRecord hs hfits
  have hactive' : s.fm.activeFileId = 2 ^ 32 - 1 := by rw [hfm, ← hactive]; rfl
  -- So the second one does not fit, and the roll-over leads to file `0`.
  have hfull : ¬ s.fm.Fits e := by
    have hwrite : s.fm.activeOffset = totalSize (s.log s.fm.activeFileId) := hholds.write
    rw [hlog, hactive', hactive, Log.add, Function.update_self, totalSize_concat] at hwrite
    rw [FileManager.Fits, hwrite]
    omega
  have hne : 0 ≠ 2 ^ 32 - 1 := by decide
  have hlinked : (s.fm.dataFiles 0).linked = false := by
    rw [hfm, hactive, FileManager.addRecord]
    simp only [Function.update_of_ne hne, lastFiles_dataFiles hne, DataFile.absent]
  have hlog₀ : s.log 0 = [] := by
    rw [hlog, hactive, Log.add, Function.update_of_ne hne]
  obtain ⟨fm', hroll, hlaid, hzero, hoffset'⟩ :=
    exists_rolled_to_zero hholds hactive' hlinked hlog₀
  obtain ⟨u, hrun₁, hfmu, hlogu, hcallsu⟩ := exists_rolled (t := 1) hholds.toLaid hs
    (by rw [hcalls]; simp) hfull hroll
  have hrun₂ := run_fits (t := 1) (s := u) (by rw [hfmu, hlogu]; exact hlaid) hs
    (by rw [hcallsu, Function.update_self])
    (by rw [hfmu, FileManager.Fits, hoffset', Nat.zero_add]; exact hs.size)
  refine ⟨e, s, _, hs, lastFiles_holds, hrun, run_append.mpr ⟨u, hrun₁, hrun₂⟩, ?_, ?_, ?_, ?_⟩
  · rw [hcalls, Function.update_self, hactive, hoffset]
  · rw [hcalls]
    rfl
  · dsimp only
    rw [Function.update_self, hfmu, hzero, hoffset']
  · exact Location.lt_iff.mpr (Or.inl (by decide))

end PedroDB.Appenders
