import PedroDB.Theorems.MetadataLog

/-!
# What is left of a metadata file

The metadata file is only appended to, so what a crash leaves of it is a prefix. Recovery
accepts a prefix exactly if it ends between two entries, and then it restores a state of the
past; any other prefix, and so any entry that was written in part, keeps the database from
opening.

## Main results

* `MetadataManager.recovery_isSome_iff` — the byte strings that recovery accepts
* `MetadataManager.openMetadata_take` — opening what is left of a metadata file
-/

namespace PedroDB.MetadataManager

open Transition

section

variable [Platform] {m : MetadataManager} {name buffer : Bytes} {files : Finset ℕ} {fuel k : ℕ}
  {es : List LogEntry} {calls : List Call}

/-- The loop reads whole entries, whatever their bytes are. -/
theorem replay_isSome_iff (hfuel : buffer.length ≤ fuel) :
    (replay fuel buffer files).isSome ↔ 5 ∣ buffer.length := by
  induction fuel generalizing buffer files with
  | zero =>
    obtain rfl := List.eq_nil_of_length_eq_zero (Nat.le_zero.mp hfuel)
    simp [replay]
  | succ fuel ih =>
    rw [replay]
    split_ifs with hnil
    · simp [hnil]
    · have hpos : 0 < buffer.length := List.length_pos_iff.mpr hnil
      rcases Nat.lt_or_ge buffer.length 5 with hshort | hlong
      · -- What is left is shorter than an entry.
        have hnone : LogEntry.unPack buffer = none := if_pos hshort
        simp only [hnone, Option.isSome_none, Bool.false_eq_true, false_iff]
        omega
      · obtain ⟨e, hsome⟩ : ∃ e, LogEntry.unPack buffer = some (e, buffer.drop 5) :=
          ⟨_, if_neg (Nat.not_lt.mpr hlong)⟩
        simp only [hsome]
        rw [ih (by rw [List.length_drop]; omega), List.length_drop]
        omega

/-- Recovery accepts a byte string exactly if its header is whole and whole entries follow. -/
theorem recovery_isSome_iff (file : Bytes) : (recovery file).isSome ↔
    2 ≤ file.length ∧ 2 + (Platform.getU16 (file.take 2)).toNat ≤ file.length ∧
      5 ∣ file.length - (2 + (Platform.getU16 (file.take 2)).toNat) := by
  rcases Nat.lt_or_ge file.length 2 with hshort | hlong
  · have hheader : unPackHeader file = none := if_pos hshort
    simp only [recovery, hheader, Option.isSome_none, Bool.false_eq_true, false_iff]
    omega
  · rcases Nat.lt_or_ge (file.drop 2).length (Platform.getU16 (file.take 2)).toNat with hname | hname
    · have hheader : unPackHeader file = none := by
        rw [unPackHeader, if_neg (Nat.not_lt.mpr hlong)]
        exact if_pos hname
      rw [List.length_drop] at hname
      simp only [recovery, hheader, Option.isSome_none, Bool.false_eq_true, false_iff]
      omega
    · obtain ⟨header, hheader⟩ : ∃ header, unPackHeader file =
          some (header, (file.drop 2).drop (Platform.getU16 (file.take 2)).toNat) := by
        rw [unPackHeader, if_neg (Nat.not_lt.mpr hlong)]
        exact ⟨_, if_neg (Nat.not_lt.mpr hname)⟩
      rw [List.length_drop] at hname
      simp only [recovery, hheader, Option.isSome_map]
      rw [replay_isSome_iff le_rfl, List.length_drop, List.length_drop, Nat.sub_sub]
      omega

theorem length_flatMap_pack : (es.flatMap LogEntry.pack).length = 5 * es.length := by
  induction es with
  | nil => rfl
  | cons e es ih =>
    simp only [List.flatMap_cons, List.length_append, LogEntry.length_pack, ih, List.length_cons]
    omega

/-- A cut between two entries leaves the entries in front of it. -/
theorem take_flatMap_pack (j : ℕ) :
    (es.flatMap LogEntry.pack).take (5 * j) = (es.take j).flatMap LogEntry.pack := by
  induction es generalizing j with
  | nil => simp
  | cons e es ih =>
    cases j with
    | zero => simp
    | succ j =>
      have hj : 5 * (j + 1) = e.pack.length + 5 * j := by
        rw [LogEntry.length_pack]
        omega
      rw [List.flatMap_cons, hj, List.take_length_add_append, ih, List.take_succ_cons,
        List.flatMap_cons]

/-- The entries of the metadata file spell out past states, of which the last is the present. -/
structure Remembers (m : MetadataManager) (name : Bytes) (calls : List Call)
    (es : List LogEntry) : Prop where
  called : m.name = name
  file : m.file = packHeader m.name ++ es.flatMap LogEntry.pack
  ids : ∀ e ∈ es, e.id < 2 ^ 32
  present : m.files = registered calls
  all : m.files = es.foldl applyEntry ∅
  past : ∀ j, ∃ before, before <+: calls ∧ (es.take j).foldl applyEntry ∅ = registered before

omit [Platform] in
theorem registered_concat (calls : List Call) (c : Call) : registered (calls ++ [c]) =
    match c with
    | .createFile id => insert id.toNat (registered calls)
    | .deleteFile id => (registered calls).erase id.toNat
    | .reopen => registered calls := by
  rw [registered, List.foldl_concat]
  rfl

namespace Remembers

theorem createDatabase (name : Bytes) :
    Remembers (MetadataManager.createDatabase name) name [] [] where
  called := rfl
  file := by simp [MetadataManager.createDatabase]
  ids := by simp
  present := rfl
  all := rfl
  past := fun j => ⟨[], List.prefix_rfl, by simp [registered]⟩

/-- A call that has nothing to change. -/
theorem keep (h : Remembers m name calls es) {c : Call}
    (hsame : registered (calls ++ [c]) = registered calls) : Remembers m name (calls ++ [c]) es :=
  { h with
    present := by rw [hsame, h.present]
    past := fun j => by
      obtain ⟨before, hle, hpast⟩ := h.past j
      exact ⟨before, hle.trans (List.prefix_append calls [c]), hpast⟩ }

/-- A call that logs an entry. -/
theorem log (h : Remembers m name calls es) {c : Call} {e : LogEntry} (hid : e.id < 2 ^ 32)
    (hfiles : applyEntry m.files e = registered (calls ++ [c])) :
    Remembers { m with files := applyEntry m.files e, file := m.file ++ e.pack } name
      (calls ++ [c]) (es ++ [e]) where
  called := h.called
  file := by simp [h.file]
  ids := by
    intro x hx
    rcases List.mem_append.mp hx with hx | hx
    · exact h.ids x hx
    · exact List.mem_singleton.mp hx ▸ hid
  present := hfiles
  all := by rw [List.foldl_concat, ← h.all]
  past := by
    intro j
    rcases Nat.lt_or_ge es.length j with hj | hj
    · refine ⟨calls ++ [c], List.prefix_rfl, ?_⟩
      rw [List.take_of_length_le (by rw [List.length_append]; exact hj), List.foldl_concat, ← h.all,
        hfiles]
    · obtain ⟨before, hle, hpast⟩ := h.past j
      exact ⟨before, hle.trans (List.prefix_append calls [c]), by
        rw [List.take_append_of_le_length hj, hpast]⟩

/-- One call. -/
theorem call {c : Call} {m' : MetadataManager} (h : Remembers m name calls es)
    (hname : name.length ≤ 65535) (hcall : m.call c = some m') :
    ∃ es', Remembers m' name (calls ++ [c]) es' := by
  have hconcat := registered_concat calls c
  cases c with
  | createFile id =>
    obtain rfl := Option.some_inj.mp hcall
    unfold createFile
    split_ifs with hmem
    · refine ⟨es, h.keep ?_⟩
      rw [hconcat, ← h.present]
      exact Finset.insert_eq_of_mem hmem
    · refine ⟨_, h.log (e := ⟨.kCreateFile, id.toNat⟩) id.toNat_lt ?_⟩
      rw [hconcat, ← h.present]
      rfl
  | deleteFile id =>
    obtain rfl := Option.some_inj.mp hcall
    unfold deleteFile
    split_ifs with hmem
    · refine ⟨_, h.log (e := ⟨.kDeleteFile, id.toNat⟩) id.toNat_lt ?_⟩
      rw [hconcat, ← h.present]
      rfl
    · refine ⟨es, h.keep ?_⟩
      rw [hconcat, ← h.present]
      exact Finset.erase_eq_of_notMem hmem
  | reopen =>
    have hlogged : m.Logged := ⟨es, h.file, h.ids, h.all⟩
    have hlen : m.name.length < 2 ^ 16 := by
      rw [h.called]
      omega
    rw [MetadataManager.call, DBImpl.openMetadata, if_neg (file_ne_nil hlogged),
      hlogged.recovery_eq hlen] at hcall
    obtain rfl := Option.some_inj.mp hcall
    exact ⟨es, h.keep hconcat⟩

end Remembers

/-- What is left of the metadata file after a crash opens exactly if nothing is left, or a whole
header and whole entries; and then it opens with the files that were registered at one time. -/
theorem openMetadata_take (hname : name.length ≤ 65535)
    (hrun : Run call (createDatabase name) calls m) (hk : k ≤ m.file.length) :
    ((DBImpl.openMetadata name { Disk.empty with metadata := m.file.take k }).isSome ↔
      k = 0 ∨ ∃ j, k = 2 + name.length + 5 * j) ∧
    ∀ m', DBImpl.openMetadata name { Disk.empty with metadata := m.file.take k } = some m' →
      m'.name = name ∧ ∃ before, before <+: calls ∧ m'.files = registered before := by
  obtain ⟨es, h⟩ : ∃ es, Remembers m name calls es := by
    refine hrun.history (P := fun calls m => ∃ es, Remembers m name calls es)
      (g := fun _ _ => True) (fun _ _ _ _ _ _ => trivial) ⟨[], .createDatabase name⟩ ?_
    rintro calls t c u ⟨es, h⟩ - hstep
    exact h.call hname hstep
  rcases Nat.eq_zero_or_pos k with rfl | hpos
  · -- Nothing is left, and a new database is made.
    have hopen : DBImpl.openMetadata name { Disk.empty with metadata := m.file.take 0 } =
        some (createDatabase name) := rfl
    refine ⟨iff_of_true (by rw [hopen]; rfl) (Or.inl rfl), fun m' hm' => ?_⟩
    obtain rfl := Option.some_inj.mp (hopen.symm.trans hm')
    exact ⟨rfl, [], List.nil_prefix, rfl⟩
  · have hlength : (m.file.take k).length = k := List.length_take_of_le hk
    have hne : m.file.take k ≠ [] := List.ne_nil_of_length_pos (by rwa [hlength])
    have hopen : DBImpl.openMetadata name { Disk.empty with metadata := m.file.take k } =
        recovery (m.file.take k) := if_neg hne
    have hput : (Platform.putU16 (UInt16.ofNat name.length)).length = 2 := Platform.length_putU16 _
    -- A prefix with a whole length field has that of the header.
    have htake : 2 ≤ k → (Platform.getU16 ((m.file.take k).take 2)).toNat = name.length := by
      intro h2
      rw [List.take_take, Nat.min_eq_left h2, h.file, h.called, packHeader, List.append_assoc,
        List.take_left' hput, Platform.getU16_putU16, UInt16.toNat_ofNat']
      exact Nat.mod_eq_of_lt (by omega)
    have hiff : (recovery (m.file.take k)).isSome ↔ ∃ j, k = 2 + name.length + 5 * j := by
      rw [recovery_isSome_iff, hlength]
      constructor
      · rintro ⟨h2, hle, j, hj⟩
        rw [htake h2] at hle hj
        exact ⟨j, by omega⟩
      · rintro ⟨j, rfl⟩
        rw [htake (by omega)]
        exact ⟨by omega, by omega, j, by omega⟩
    rw [hopen, hiff]
    refine ⟨by simp [Nat.pos_iff_ne_zero.mp hpos], fun m' hm' => ?_⟩
    obtain ⟨j, rfl⟩ := hiff.mp (Option.isSome_of_eq_some hm')
    -- The prefix is the file of a state of the past.
    have hcut : m.file.take (2 + name.length + 5 * j) =
        packHeader name ++ (es.take j).flatMap LogEntry.pack := by
      have hheader : (packHeader name).length = 2 + name.length := by
        rw [packHeader, List.length_append, hput]
      rw [h.file, h.called, ← hheader, List.take_length_add_append, take_flatMap_pack]
    obtain ⟨before, hle, hpast⟩ := h.past j
    have hlogged : Logged { name, files := registered before, file := m.file.take _ } :=
      ⟨es.take j, hcut, fun e he => h.ids e (List.mem_of_mem_take he), hpast.symm⟩
    rw [hlogged.recovery_eq (by dsimp only; omega), Option.some_inj] at hm'
    exact ⟨by rw [← hm'], before, hle, by rw [← hm']⟩

end

open scoped Reference

/-- A file was created and another one deleted, and the last byte of the last entry is lost. -/
theorem openMetadata_take_torn : ∃ m,
    Run call (createDatabase [100]) [.createFile 1, .createFile 2, .deleteFile 1] m ∧
    ((DBImpl.openMetadata [100] { Disk.empty with metadata := m.file.take 17 }).isSome ↔
      17 = 0 ∨ ∃ j, 17 = 2 + [(100 : Byte)].length + 5 * j) ∧
    ∀ m', DBImpl.openMetadata [100] { Disk.empty with metadata := m.file.take 17 } = some m' →
      m'.name = [100] ∧ ∃ before,
        before <+: [.createFile 1, .createFile 2, .deleteFile 1] ∧
          m'.files = registered before := by
  have hrun : Run call (createDatabase [100]) [.createFile 1, .createFile 2, .deleteFile 1]
    ((((createDatabase [100]).createFile .sound 1).2.createFile .sound 2).2.deleteFile
      .sound 1).2 := rfl
  exact ⟨_, hrun, openMetadata_take (by decide) hrun (by decide)⟩

end PedroDB.MetadataManager
