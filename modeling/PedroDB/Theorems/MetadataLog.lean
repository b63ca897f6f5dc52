import PedroDB.DBImpl
import PedroDB.Lib.Transition
import PedroDB.Reference

/-!
# Replaying the metadata log

However files were created and deleted, and however often the database was reopened in
between, reading the metadata file back restores the name and the set of files.

## Main definitions

* `MetadataManager.Call`, `MetadataManager.call` — creations, deletions and reopenings
* `MetadataManager.registered` — the files that calls leave registered

## Main results

* `MetadataManager.exists_run_recovery` — every sequence of calls returns, and recovery
  restores what is in memory at its end
-/

namespace PedroDB.MetadataManager

open Transition

inductive Call
  | createFile (id : UInt32)
  | deleteFile (id : UInt32)
  /-- The process stops, and `Init` runs in a new one. -/
  | reopen

/-- The files that calls leave registered. -/
def registered (calls : List Call) : Finset ℕ :=
  calls.foldl (fun files c =>
    match c with
    | .createFile id => insert id.toNat files
    | .deleteFile id => files.erase id.toNat
    | .reopen => files) ∅

section

variable [Platform]

/-- `none` is the fatal exit. -/
def call (m : MetadataManager) : Call → Option MetadataManager
  | .createFile id => some (m.createFile .sound id.toNat).2
  | .deleteFile id => some (m.deleteFile .sound id.toNat).2
  | .reopen => DBImpl.openMetadata m.name { Disk.empty with metadata := m.file }

variable {m : MetadataManager} {name : Bytes} {calls : List Call} {c : Call}

theorem file_ne_nil (h : m.Logged) : m.file ≠ [] := by
  obtain ⟨es, hfile, -⟩ := h
  intro hnil
  have hlen := congrArg List.length (hfile.symm.trans hnil)
  simp [packHeader] at hlen

/-- One call returns, and what it leaves in memory is logged. -/
theorem call_eq (h : m.Logged) (hname : m.name.length < 2 ^ 16) (c : Call) :
    ∃ m', m.call c = some m' ∧ m'.Logged ∧ m'.name = m.name ∧
      m'.files = match c with
        | .createFile id => insert id.toNat m.files
        | .deleteFile id => m.files.erase id.toNat
        | .reopen => m.files := by
  cases c with
  | createFile id =>
    exact ⟨_, rfl, h.createFile id.toNat_lt, createFile_name, createFile_files⟩
  | deleteFile id =>
    exact ⟨_, rfl, h.deleteFile id.toNat_lt, deleteFile_name, deleteFile_files⟩
  | reopen =>
    refine ⟨m, ?_, h, rfl, rfl⟩
    rw [call, DBImpl.openMetadata, if_neg (file_ne_nil h)]
    exact h.recovery_eq hname

/-- After any calls on a new database, reading the metadata file back to its last byte
restores the name and the files in memory, and `GetFiles()` ascends. -/
theorem exists_run_recovery (hname : name.length ≤ 65535) (calls : List Call) :
    ∃ m, Run call (createDatabase name) calls m ∧ m.name = name ∧ m.files = registered calls ∧
      recovery m.file = some m ∧
      (∃ rest, unPackHeader m.file = some (name, rest) ∧
        replay rest.length rest ∅ = some m.files) ∧
      m.getFiles.Pairwise (· < ·) ∧ ∀ id, id ∈ m.getFiles ↔ id ∈ m.files := by
  -- The log of the calls so far, by induction from the end.
  have hrun : ∃ m, Run call (createDatabase name) calls m ∧ m.Logged ∧ m.name = name ∧
      m.files = registered calls := by
    induction calls using List.reverseRecOn with
    | nil => exact ⟨_, run_nil.mpr rfl, Logged.createDatabase name, rfl, rfl⟩
    | append_singleton calls c ih =>
      obtain ⟨m, hm, hlogged, rfl, hfiles⟩ := ih
      obtain ⟨m', hcall, hlogged', hname', hfiles'⟩ := call_eq hlogged (by omega) c
      refine ⟨m', run_concat.mpr ⟨m, hm, hcall⟩, hlogged', hname', ?_⟩
      rw [hfiles', hfiles, registered, registered, List.foldl_concat]
  obtain ⟨m, hm, hlogged, rfl, hfiles⟩ := hrun
  have hrecovery := hlogged.recovery_eq (by omega)
  refine ⟨m, hm, rfl, hfiles, hrecovery, ?_, m.files.sortedLT_sort.pairwise, fun id => ?_⟩
  · -- What recovery succeeds on is a header and entries that it reads to the end.
    rcases hheader : unPackHeader m.file with _ | ⟨header, rest⟩
    · simp [recovery, hheader] at hrecovery
    · simp only [recovery, hheader, Option.map_eq_some_iff] at hrecovery
      obtain ⟨files, hreplay, heq⟩ := hrecovery
      have hname' : header = m.name := congrArg MetadataManager.name heq
      have hfiles' : files = m.files := congrArg MetadataManager.files heq
      exact ⟨rest, by rw [hname'], by rw [hreplay, hfiles']⟩
  · rw [getFiles, Finset.mem_sort]

end

open scoped Reference

theorem exists_run_recovery_recreated : ∃ m,
    Run call (createDatabase [100])
      [.createFile 1, .createFile 2, .deleteFile 1, .reopen, .createFile 1] m ∧
    m.name = [100] ∧
    m.files = registered [.createFile 1, .createFile 2, .deleteFile 1, .reopen, .createFile 1] ∧
    recovery m.file = some m ∧
    (∃ rest, unPackHeader m.file = some ([100], rest) ∧
      replay rest.length rest ∅ = some m.files) ∧
    m.getFiles.Pairwise (· < ·) ∧ ∀ id, id ∈ m.getFiles ↔ id ∈ m.files :=
  exists_run_recovery (by decide) _

end PedroDB.MetadataManager
