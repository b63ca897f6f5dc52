import PedroDB.Lib.Transition
import PedroDB.MetadataManager
import PedroDB.Reference

/-!
# Metadata operations that fail

`CreateFile` and `DeleteFile` change the set in memory, then write the change to the metadata
file and sync it. Whether the write succeeds they do not look at, and a failed sync they report
without taking the change back; the next call finds the set changed and answers `kOk`.

## Main definitions

* `MetadataManager.Operation`, `MetadataManager.operate` — a call, with the end of its I/O
* `MetadataManager.Reports` — an answer agrees with the disk, and a failed call changes nothing
* `MetadataManager.Lands` — a call that changes the set writes and syncs the change

## Main results

* `MetadataManager.recovery_append` — one more entry behind a metadata file
* `MetadataManager.meets_reports_iff` — all answers of a run are right exactly if no change fails
-/

namespace PedroDB.MetadataManager

open Transition

/-- A call of `CreateFile` or `DeleteFile`, and how its write and its `Sync` end. -/
structure Operation where
  type : LogType
  id : UInt32
  io : MetadataIo

/-- The call finds the set of files other than it should leave it. -/
def Changes (m : MetadataManager) (o : Operation) : Prop :=
  o.id.toNat ∈ m.files ↔ o.type = .kDeleteFile

/-- If the call changes the set, the change is written and synced. -/
def Lands (m : MetadataManager) (o : Operation) : Prop :=
  m.Changes o → o.io.writes = true ∧ o.io.syncs = true

instance (m : MetadataManager) (o : Operation) : Decidable (m.Changes o) :=
  inferInstanceAs (Decidable (_ ↔ _))

instance (m : MetadataManager) (o : Operation) : Decidable (m.Lands o) :=
  inferInstanceAs (Decidable (_ → _))

section

variable [Platform]

/-- What the call logs. -/
def Operation.entry (o : Operation) : LogEntry := { type := o.type, id := o.id.toNat }

def operate (m : MetadataManager) (o : Operation) : Status × MetadataManager :=
  match o.type with
  | .kCreateFile => m.createFile o.io o.id.toNat
  | .kDeleteFile => m.deleteFile o.io o.id.toNat

def step (m : MetadataManager) (o : Operation) : Option MetadataManager := some (m.operate o).2

/-- After `kOk` the bytes of the file spell out a set with the file that was created, or without
the one that was deleted; after any other status the set in memory is as it was. -/
structure Reports (m : MetadataManager) (o : Operation) : Prop where
  onDisk : (m.operate o).1 = .kOk → ∃ r, recovery (m.operate o).2.file = some r ∧
    (o.id.toNat ∈ r.files ↔ o.type = .kCreateFile)
  unchanged : (m.operate o).1 ≠ .kOk → (m.operate o).2.files = m.files

variable {m : MetadataManager} {o : Operation} {os : List Operation} {e : LogEntry}
  {file rest : Bytes} {files files' : Finset ℕ} {fuel more : ℕ}

/-! ### One more entry -/

theorem replay_nil : replay fuel [] files = some files := by
  cases fuel with
  | zero => rfl
  | succ fuel => rfl

theorem replay_pack (hid : e.id < 2 ^ 32) :
    replay (fuel + 1) e.pack files = some (applyEntry files e) := by
  have hne : e.pack ≠ [] := by
    apply List.ne_nil_of_length_pos
    rw [LogEntry.length_pack]
    decide
  have hunPack : LogEntry.unPack e.pack = some (e, []) := by
    have hpacked : LogEntry.unPack (e.pack ++ []) = some (e, []) := LogEntry.unPack_pack hid
    rwa [List.append_nil] at hpacked
  rw [replay, if_neg hne, hunPack]
  exact replay_nil

/-- An entry is decoded from its own bytes. -/
theorem unPack_append {ys : Bytes} {x : LogEntry} {rest' : Bytes}
    (h : LogEntry.unPack rest = some (x, rest')) :
    LogEntry.unPack (rest ++ ys) = some (x, rest' ++ ys) := by
  unfold LogEntry.unPack at h ⊢
  by_cases hshort : rest.length < 5
  · simp [hshort] at h
  · rw [if_neg hshort] at h
    obtain ⟨rfl, rfl⟩ := Prod.mk.inj (Option.some_inj.mp h)
    obtain ⟨b, rest, rfl⟩ := List.exists_cons_of_length_pos (show 0 < rest.length by omega)
    have hlen : 4 ≤ rest.length := by
      rw [List.length_cons] at hshort
      omega
    have hlong : ¬ (b :: rest ++ ys).length < 5 := by
      simp only [List.length_append, List.length_cons]
      omega
    rw [if_neg hlong]
    simp only [List.cons_append, List.headD_cons, List.drop_succ_cons, List.drop_zero,
      List.take_append_of_le_length hlen, List.drop_append_of_le_length hlen]
    rfl

theorem unPackHeader_append {ys : Bytes} {name : Bytes}
    (h : unPackHeader file = some (name, rest)) :
    unPackHeader (file ++ ys) = some (name, rest ++ ys) := by
  unfold unPackHeader at h ⊢
  by_cases hshort : file.length < 2
  · simp [hshort] at h
  · have hlen : 2 ≤ file.length := not_lt.mp hshort
    have hlong : ¬ (file ++ ys).length < 2 := by
      rw [List.length_append]
      omega
    rw [if_neg hshort] at h
    rw [if_neg hlong, List.take_append_of_le_length hlen, List.drop_append_of_le_length hlen]
    dsimp only at h ⊢
    by_cases hroom : (file.drop 2).length < (Platform.getU16 (file.take 2)).toNat
    · rw [if_pos hroom] at h
      cases h
    · rw [if_neg hroom] at h
      obtain ⟨rfl, rfl⟩ := Prod.mk.inj (Option.some_inj.mp h)
      have hle := not_lt.mp hroom
      rw [if_neg (by rw [List.length_append]; omega), List.take_append_of_le_length hle,
        List.drop_append_of_le_length hle]

/-- The loop goes on into an entry that stands behind what it has read. -/
theorem replay_append (hid : e.id < 2 ^ 32) (h : replay fuel rest files = some files') :
    replay (fuel + 1 + more) (rest ++ e.pack) files = some (applyEntry files' e) := by
  rcases eq_or_ne rest [] with rfl | hrest
  · obtain rfl : files = files' := Option.some_inj.mp (replay_nil.symm.trans h)
    rw [List.nil_append, Nat.add_right_comm]
    exact replay_pack hid
  · induction fuel generalizing rest files with
    | zero => simp [replay, hrest] at h
    | succ fuel ih =>
      rw [replay, if_neg hrest] at h
      rcases hunPack : LogEntry.unPack rest with _ | ⟨x, rest'⟩
      · simp [hunPack] at h
      · rw [hunPack] at h
        have hne : rest ++ e.pack ≠ [] := by simp [hrest]
        rw [show fuel + 1 + 1 + more = fuel + 1 + more + 1 by omega, replay, if_neg hne,
          unPack_append hunPack]
        rcases eq_or_ne rest' [] with rfl | hrest'
        · obtain rfl := Option.some_inj.mp (replay_nil.symm.trans h)
          rw [List.nil_append, Nat.add_right_comm]
          exact replay_pack hid
        · exact ih h hrest'

/-- What recovery makes of a metadata file with one more entry. -/
theorem recovery_append (hid : e.id < 2 ^ 32) (h : recovery m.file = some m) :
    recovery (m.file ++ e.pack) =
      some { m with files := applyEntry m.files e, file := m.file ++ e.pack } := by
  rcases hheader : unPackHeader m.file with _ | ⟨name, rest⟩
  · simp [recovery, hheader] at h
  · simp only [recovery, hheader, Option.map_eq_some_iff] at h
    obtain ⟨files, hreplay, hm⟩ := h
    have hname : name = m.name := congrArg MetadataManager.name hm
    have hfiles : files = m.files := congrArg MetadataManager.files hm
    subst hname hfiles
    have hmore : (rest ++ e.pack).length = rest.length + 1 + 4 := by
      rw [List.length_append, LogEntry.length_pack]
    rw [recovery, unPackHeader_append hheader]
    simp only [hmore, replay_append hid hreplay, Option.map_some]

/-! ### One call -/

theorem operate_of_not_changes (h : ¬ m.Changes o) : m.operate o = (.kOk, m) := by
  rw [Changes] at h
  cases htype : o.type with
  | kCreateFile =>
    have hmem : o.id.toNat ∈ m.files := by simpa [htype] using h
    simp only [operate, htype, createFile, if_pos hmem]
  | kDeleteFile =>
    have hmem : o.id.toNat ∉ m.files := by simpa [htype] using h
    simp only [operate, htype, deleteFile, if_pos hmem]

theorem operate_of_changes (h : m.Changes o) :
    m.operate o = (if o.io.syncs then .kOk else .kIOError,
      { m with
        files := applyEntry m.files o.entry
        file := if o.io.writes then m.file ++ o.entry.pack else m.file }) := by
  rw [Changes] at h
  cases htype : o.type with
  | kCreateFile =>
    have hmem : o.id.toNat ∉ m.files := by simpa [htype] using h
    simp only [operate, htype, createFile, if_neg hmem, logEntry, Operation.entry, applyEntry]
  | kDeleteFile =>
    have hmem : ¬ o.id.toNat ∉ m.files := by simpa [htype] using h
    simp only [operate, htype, deleteFile, if_neg hmem, logEntry, Operation.entry, applyEntry]

omit [Platform] in
/-- A change has an effect. -/
theorem Changes.mem_applyEntry (h : m.Changes o) :
    (o.id.toNat ∈ applyEntry m.files o.entry ↔ o.type = .kCreateFile) ∧
      (o.id.toNat ∈ m.files ↔ ¬ o.type = .kCreateFile) := by
  rw [Changes] at h
  cases htype : o.type with
  | kCreateFile => simp [applyEntry, Operation.entry, htype, h]
  | kDeleteFile => simp [applyEntry, Operation.entry, htype, h]

/-- As long as the set in memory is the one on disk, the answer to a call is right exactly if a
change lands. -/
theorem reports_iff (h : recovery m.file = some m) : m.Reports o ↔ m.Lands o := by
  by_cases hchanges : m.Changes o
  · obtain ⟨hmem, hmem'⟩ := hchanges.mem_applyEntry
    have hoperate := operate_of_changes hchanges
    constructor
    · intro hreports _
      have hsyncs : o.io.syncs = true := by
        by_contra hfails
        -- The set in memory has changed.
        have hsame := hreports.unchanged (by simp [hoperate, hfails])
        rw [hoperate] at hsame
        dsimp only at hsame
        rw [hsame, hmem'] at hmem
        tauto
      refine ⟨?_, hsyncs⟩
      by_contra hfails
      -- The bytes on disk have not changed.
      obtain ⟨r, hr, hcreated⟩ := hreports.onDisk (by simp [hoperate, hsyncs])
      rw [hoperate] at hr
      simp only [hfails, if_false, h, Option.some.injEq] at hr
      rw [← hr, hmem'] at hcreated
      tauto
    · intro hlands
      obtain ⟨hwrites, hsyncs⟩ := hlands hchanges
      have hok : m.operate o = (.kOk,
          { m with files := applyEntry m.files o.entry, file := m.file ++ o.entry.pack }) := by
        rw [hoperate, hwrites, hsyncs]
        rfl
      constructor
      · intro _
        rw [hok]
        exact ⟨_, recovery_append o.id.toNat_lt h, hmem⟩
      · intro hstatus
        exact absurd (congrArg Prod.fst hok) hstatus
  · have hoperate := operate_of_not_changes hchanges
    refine iff_of_true ⟨fun _ => ⟨m, ?_, ?_⟩, fun _ => ?_⟩ fun hc => absurd hc hchanges
    · rw [hoperate]
      exact h
    · rw [Changes] at hchanges
      cases htype : o.type with
      | kCreateFile => simpa [htype] using hchanges
      | kDeleteFile => simpa [htype] using hchanges
    · rw [hoperate]

/-- A call that lands leaves the set in memory and the one on disk the same. -/
theorem recovery_operate (h : recovery m.file = some m) (hlands : m.Lands o) :
    recovery (m.operate o).2.file = some (m.operate o).2 := by
  by_cases hchanges : m.Changes o
  · obtain ⟨hwrites, hsyncs⟩ := hlands hchanges
    rw [operate_of_changes hchanges, hwrites]
    exact recovery_append o.id.toNat_lt h
  · rw [operate_of_not_changes hchanges]
    exact h

/-! ### Runs -/

/-- From a state in which memory and disk agree, every call of a run is answered rightly exactly
if every call that changes the set writes and syncs its change. -/
theorem meets_reports_iff (h : recovery m.file = some m) (os : List Operation) :
    Meets step Reports m os ↔ Meets step Lands m os := by
  induction os generalizing m with
  | nil => exact iff_of_true meets_nil meets_nil
  | cons o os ih =>
    rw [meets_cons, meets_cons, reports_iff h]
    apply and_congr_right
    intro hlands
    have hrest := ih (recovery_operate h hlands)
    constructor
    · rintro hreports t ht
      obtain rfl := Option.some_inj.mp ht
      exact hrest.mp (hreports _ rfl)
    · rintro hland t ht
      obtain rfl := Option.some_inj.mp ht
      exact hrest.mpr (hland _ rfl)

end

open scoped Reference

theorem recovery_createDatabase :
    recovery (createDatabase [100]).file = some (createDatabase [100]) :=
  (Logged.createDatabase [100]).recovery_eq (by decide)

/-- A file is created and deleted; the failures meet calls that have nothing to change. -/
theorem meets_reports_iff_two : Meets step Reports (createDatabase [100])
    [⟨.kCreateFile, 1, ⟨true, true⟩⟩, ⟨.kCreateFile, 1, ⟨false, false⟩⟩,
      ⟨.kDeleteFile, 1, ⟨true, true⟩⟩] := by
  apply (meets_reports_iff recovery_createDatabase _).mpr
  exact meets_of_check (by decide)

/-- The write fails, and `CreateFile` returns `kOk`. -/
theorem exists_not_reports : ∃ m os, recovery m.file = some m ∧ ¬ Meets step Reports m os := by
  refine ⟨createDatabase [100], [⟨.kCreateFile, 1, ⟨false, true⟩⟩], recovery_createDatabase, ?_⟩
  intro hmeets
  have hreports := (meets_cons.mp hmeets).1
  obtain ⟨r, hr, hcreated⟩ := hreports.onDisk rfl
  obtain rfl : createDatabase [100] = r := Option.some_inj.mp (recovery_createDatabase.symm.trans hr)
  exact absurd (hcreated.mpr rfl) (by decide)

end PedroDB.MetadataManager
